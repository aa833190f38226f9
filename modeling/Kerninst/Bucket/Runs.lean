import Kerninst.Bucket.Tiles

/-!
# Runs of a bucketer

Once the genesis time is set, values are added, blank time is added, and folds are forced, in any
order. The buckets tile time throughout as long as no operation reaches the time limit and the parts
that values are split into do not exceed them, and no longer than that (`tilesThroughout_iff`).
-/

namespace Kerninst.FoldingBucketer

open List Option

variable {V : Type} [Val V]

/-- An operation at a time when it is allowed: the time does not go back, and an interval ends
after the start of the current bucket. Folds are forced to powers of two. -/
def Valid (b : FoldingBucketer V) : Op V → Prop
  | .add startTime endTimePlus1 deltavals =>
    startTime < endTimePlus1 ∧ b.lastChangeTimePlus1 ≤ endTimePlus1 ∧
      b.bucketStartTime < endTimePlus1 ∧ deltavals.length = b.currValues.length
  | .addBlanksTo timePlus1 => b.lastChangeTimePlus1 ≤ timePlus1
  | .forceFold multiple => ∃ k < 32, multiple = 2 ^ k

/-- The operation does not reach the time. -/
def Op.Before (time : Nat) : Op V → Prop
  | .add _ endTimePlus1 _ => endTimePlus1 < time
  | .addBlanksTo timePlus1 => timePlus1 < time
  | .forceFold _ => True

/-- The values that the operation adds can be split over the buckets. -/
def StepSplits (b : FoldingBucketer V) : Op V → Prop
  | .add startTime endTimePlus1 deltavals =>
    ∀ b', b.addBlanksBefore startTime = some b' → b'.Splits endTimePlus1 deltavals
  | .addBlanksTo _ => True
  | .forceFold _ => True

/-- **At all times of a run**, no assertion has failed, and the buckets tile time. -/
def TilesThroughout (b : FoldingBucketer V) (ops : List (Op V)) : Prop :=
  ∀ pre, pre <+: ops → ∃ b', pre.foldlM step b = some b' ∧ Tiled b'

section Runs

variable {b b' : FoldingBucketer V} {op : Op V}

theorem Good.step_keeps (h : Good b) (hvalid : Valid b op) (hrun : b.step op = some b') :
    Good b' ∧ Same b b' ∧ op.Before b.limit := by
  cases op with
  | add startTime endTimePlus1 deltavals =>
    obtain ⟨hgood, hsame, htime⟩ := h.add_keeps hrun
    exact ⟨hgood, hsame, by rw [Op.Before, ← htime, ← hsame.limit_eq]; exact hgood.lt_limit⟩
  | addBlanksTo timePlus1 =>
    obtain ⟨hgood, hsame, htime⟩ := h.addBlanksTo_keeps hrun
    exact ⟨hgood, hsame, by rw [Op.Before, ← htime, ← hsame.limit_eq]; exact hgood.lt_limit⟩
  | forceFold multiple =>
    obtain ⟨k, hk, rfl⟩ := hvalid
    obtain ⟨b'', hb'', hgood, hsame, -⟩ := h.forceFold_spec hk
    obtain rfl := mem_unique hb'' hrun
    exact ⟨hgood, hsame, trivial⟩

theorem Good.stepSplits (hV : Val.Shrinks V) (h : Good b) (hvalid : Valid b op) :
    StepSplits b op := by
  cases op with
  | add startTime endTimePlus1 deltavals =>
    obtain ⟨hlt, hle, -, hlen⟩ := hvalid
    intro b' hblank
    obtain ⟨hgood, hsame, htime⟩ := h.addBlanksBefore_keeps hblank
    exact hgood.splits hV (hlen.trans hsame.length.symm) (by omega)
  | addBlanksTo timePlus1 => trivial
  | forceFold multiple => trivial

theorem stepSplits_of_step (hrun : b.step op = some b') : StepSplits b op := by
  cases op with
  | add startTime endTimePlus1 deltavals =>
    simp only [step, add, do_eq_some, check_eq_some] at hrun
    obtain ⟨_, -, _, -, _, -, b₁, hblank, _, -, hrun⟩ := hrun
    intro b₂ hblank'
    obtain rfl := mem_unique hblank hblank'
    exact splits_of_addTo hrun
  | addBlanksTo timePlus1 => trivial
  | forceFold multiple => trivial

theorem Good.step_isSome (h : Good b) (hvalid : Valid b op) (hbefore : op.Before b.limit)
    (hsplits : StepSplits b op) : (b.step op).isSome := by
  cases op with
  | add startTime endTimePlus1 deltavals =>
    obtain ⟨hlt, hle, hstart, hlen⟩ := hvalid
    exact h.add_isSome hlt hle hstart hlen hbefore hsplits
  | addBlanksTo timePlus1 => exact h.addBlanksTo_isSome hvalid hbefore
  | forceFold multiple =>
    obtain ⟨k, hk, rfl⟩ := hvalid
    obtain ⟨b', hb', -⟩ := h.forceFold_spec hk
    exact isSome_of_eq_some hb'

variable {ops : List (Op V)}

/-- What a run keeps, started from `b₀`. -/
theorem Good.run_keeps (h : Good b) (hall : AllSteps step Valid b ops)
    (hrun : ops.foldlM step b = some b') : Good b' ∧ Same b b' := by
  refine hall.keeps (J := fun b₁ => Good b₁ ∧ Same b b₁) (fun b₁ op b₂ hJ hvalid hstep => ?_)
    ⟨h, Same.refl b⟩ hrun
  obtain ⟨hgood, hsame, -⟩ := hJ.1.step_keeps hvalid hstep
  exact ⟨hgood, hJ.2.trans hsame⟩

theorem Good.allSteps_stepSplits (hV : Val.Shrinks V) (h : Good b)
    (hall : AllSteps step Valid b ops) : AllSteps step StepSplits b ops :=
  hall.imp (fun _ _ _ hgood hvalid hstep => (hgood.step_keeps hvalid hstep).1)
    (fun _ _ hgood hvalid => hgood.stepSplits hV hvalid) h

/-- Within the limit, no assertion fails. -/
theorem Good.tilesThroughout (h : Good b) (hall : AllSteps step Valid b ops)
    (hbefore : ∀ op ∈ ops, op.Before b.limit) (hsplits : AllSteps step StepSplits b ops) :
    TilesThroughout b ops := by
  rintro pre ⟨post, rfl⟩
  cases hrun : pre.foldlM step b with
  | some b' => exact ⟨b', rfl, (h.run_keeps hall.of_append hrun).1.tiled⟩
  | none =>
    -- the step that fails would have been within the limit
    obtain ⟨pre', op, b', ⟨rest, rfl⟩, hrun', hnone⟩ := exists_of_foldlM_eq_none hrun
    rw [append_assoc, append_assoc] at hall hsplits
    obtain ⟨hgood, hsame⟩ := h.run_keeps hall.of_append hrun'
    have hvalid : Valid b' op := (hall.of_foldlM hrun').1
    have hop : op.Before b'.limit := hsame.limit_eq ▸ hbefore op (by simp)
    have hsome := hgood.step_isSome hvalid hop (hsplits.of_foldlM hrun').1
    rw [hnone] at hsome
    cases hsome

/-- Beyond the limit, some assertion fails. -/
theorem Good.before_of_tilesThroughout (h : Good b)
    (hall : AllSteps step Valid b ops) (htiles : TilesThroughout b ops) :
    ∀ op ∈ ops, op.Before b.limit := by
  intro op hop
  obtain ⟨pre, post, rfl⟩ := append_of_mem hop
  obtain ⟨b', hrun, -⟩ := htiles (pre ++ [op]) ⟨post, by rw [append_assoc]; rfl⟩
  rw [foldlM_append] at hrun
  obtain ⟨b₁, hrun₁, hstep⟩ := exists_of_bind hrun
  obtain ⟨b₂, hstep, -⟩ := exists_of_bind hstep
  obtain ⟨hgood, hsame⟩ := h.run_keeps hall.of_append hrun₁
  exact hsame.limit_eq ▸ (hgood.step_keeps (hall.of_foldlM hrun₁).1 hstep).2.2

theorem Good.tilesThroughout_iff_splits (h : Good b) (hall : AllSteps step Valid b ops) :
    TilesThroughout b ops ↔
      (∀ op ∈ ops, op.Before b.limit) ∧ AllSteps step StepSplits b ops := by
  refine ⟨fun htiles => ⟨h.before_of_tilesThroughout hall htiles, ?_⟩,
    fun ⟨hbefore, hsplits⟩ => h.tilesThroughout hall hbefore hsplits⟩
  obtain ⟨b', hrun, -⟩ := htiles ops (prefix_refl _)
  exact allSteps_of_foldlM (fun _ _ _ => stepSplits_of_step) hrun

/-- A new bucketer, with the genesis time set. -/
def started (numValues ibaseBucketSize : Nat) (howToCombine : ValueScaling) (gTime : Nat) :
    FoldingBucketer V :=
  { create numValues ibaseBucketSize howToCombine with
    genesisTime := gTime, lastChangeTimePlus1 := gTime, bucketStartTime := gTime }

theorem setGenesisTime_create {numValues ibaseBucketSize gTime : Nat} {how : ValueScaling} :
    (create numValues ibaseBucketSize how : FoldingBucketer V).setGenesisTime gTime =
      if gTime = 0 then none else some (started numValues ibaseBucketSize how gTime) := by
  have hzero : ∀ v ∈ (create numValues ibaseBucketSize how : FoldingBucketer V).currValues,
      Val.isZero v = true := by
    intro v hv
    rw [eq_of_mem_replicate hv]
    exact Val.isZero_zero
  have hgenesis : (create numValues ibaseBucketSize how : FoldingBucketer V).genesisTime = 0 := rfl
  have hundefined : (create numValues ibaseBucketSize how :
      FoldingBucketer V).currValuesAreUndefined = true := rfl
  rw [setGenesisTime, check_pos hgenesis]
  by_cases hg : gTime = 0
  · rw [if_pos hg, check_neg (not_not_intro hg)]
    rfl
  · rw [if_neg hg, check_pos hg, check_pos hundefined, check_pos hzero]
    rfl

theorem good_started {numValues ibaseBucketSize gTime : Nat} {how : ValueScaling}
    (hbase : 0 < ibaseBucketSize) (hg : 0 < gTime) :
    Good (started numValues ibaseBucketSize how gTime : FoldingBucketer V) where
  genesis_pos := hg
  base_pos := hbase
  size := (Nat.one_mul _).symm
  starts := by
    change gTime = gTime + (0 + 0) * ibaseBucketSize
    omega
  started := le_refl _
  unfinished := Nat.lt_add_of_pos_right hbase
  multiple := ⟨0, by decide, rfl⟩
  count := (by decide : 0 + 0 < 1000)
  numbered := rfl

/-! ## Splitting a value -/

/-- Blank time within the current bucket. -/
theorem Good.addBlanksTo_within (h : Good b) {t : Nat} (hlt : b.lastChangeTimePlus1 < t)
    (hnot : b.fills t = false) :
    b.addBlanksTo t = some { b with lastChangeTimePlus1 := t } := by
  have hgenesis : b.genesisTime < t := by
    have := h.starts
    have := h.started
    omega
  have hloop : whileM (fun b => b.fills t) fillBlank (t - b.bucketStartTime) b = some b :=
    whileM_of_not hnot
  simp [addBlanksTo, check_pos h.genesis_pos.ne', check_pos hlt.le, if_neg hlt.ne', hloop,
    check_pos hgenesis]

/-- A bucketer with `timeToUse` left of its first bucket once `timeAvailable` is over. -/
abbrev leaving (timeToUse timeAvailable : Nat) : FoldingBucketer V :=
  started 1 (timeAvailable + timeToUse) .proportionalToTime 1

/-- A value that is added then. -/
theorem ge_scale_of_stepSplits {timeToUse timeAvailable : Nat} (hpos : 0 < timeToUse)
    (hle : timeToUse ≤ timeAvailable) {val : V}
    (hsplits : StepSplits (leaving timeToUse timeAvailable)
      (.add (1 + timeAvailable) (1 + 2 * timeAvailable) [val])) :
    Val.ge val (Val.scale val timeToUse timeAvailable) = true := by
  let b : FoldingBucketer V := leaving timeToUse timeAvailable
  have hgood : Good b := good_started (by omega) (by decide)
  have hnot : b.fills (1 + timeAvailable) = false := by
    refine decide_eq_false ?_
    change ¬ timeAvailable + timeToUse ≤ 1 + timeAvailable - 1
    omega
  have hlt : b.lastChangeTimePlus1 < 1 + timeAvailable := by
    change 1 < 1 + timeAvailable
    omega
  have hblanks := hgood.addBlanksTo_within hlt hnot
  have hfills : { b with lastChangeTimePlus1 := 1 + timeAvailable }.fills (1 + 2 * timeAvailable) =
      true := by
    refine decide_eq_true ?_
    change timeAvailable + timeToUse ≤ 1 + 2 * timeAvailable - 1
    omega
  have hparts := hsplits _ ((if_pos hlt).trans hblanks) _ .refl hfills val (mem_cons_self ..)
  have huse : timeAvailable + timeToUse - (1 + timeAvailable - 1) = timeToUse := by omega
  have havailable : 1 + 2 * timeAvailable - (1 + timeAvailable) = timeAvailable := by omega
  change Val.ge val (Val.scale val (timeAvailable + timeToUse - (1 + timeAvailable - 1))
    (1 + 2 * timeAvailable - (1 + timeAvailable))) = true at hparts
  rwa [huse, havailable] at hparts

/-! ## The theorem -/

theorem good_of_setGenesisTime {numValues ibaseBucketSize gTime : Nat} {how : ValueScaling}
    (hbase : 0 < ibaseBucketSize)
    (hstarted : (create numValues ibaseBucketSize how).setGenesisTime gTime = some b) :
    b = started numValues ibaseBucketSize how gTime ∧ Good b := by
  rw [setGenesisTime_create] at hstarted
  split at hstarted
  case isTrue => cases hstarted
  case isFalse hg =>
    obtain rfl := some.inj hstarted
    exact ⟨rfl, good_started hbase (by omega)⟩

/-- A run of a new bucketer, whose buckets have a positive size. -/
def IsRun (b : FoldingBucketer V) (ops : List (Op V)) : Prop :=
  ∃ numValues ibaseBucketSize how gTime, 0 < ibaseBucketSize ∧
    (create numValues ibaseBucketSize how).setGenesisTime gTime = some b ∧
    AllSteps step Valid b ops

/-- **Buckets tile time** exactly as long as times are within the limit and the parts of values
fit. That they fit need not be asked for if and only if values are such that a part of one never
exceeds it. -/
theorem tilesThroughout_iff (V : Type) [Val V] :
    (∀ (b : FoldingBucketer V) (ops : List (Op V)), IsRun b ops →
      (TilesThroughout b ops ↔
        (∀ op ∈ ops, op.Before b.limit) ∧ AllSteps step StepSplits b ops)) ∧
    (Val.Shrinks V ↔ ∀ (b : FoldingBucketer V) (ops : List (Op V)), IsRun b ops →
      (TilesThroughout b ops ↔ ∀ op ∈ ops, op.Before b.limit)) := by
  refine ⟨?_, ?_, ?_⟩
  · rintro b ops ⟨_, _, _, _, hbase, hstarted, hall⟩
    exact (good_of_setGenesisTime hbase hstarted).2.tilesThroughout_iff_splits hall
  · rintro hV b ops ⟨_, _, _, _, hbase, hstarted, hall⟩
    have hgood := (good_of_setGenesisTime hbase hstarted).2
    rw [hgood.tilesThroughout_iff_splits hall]
    exact and_iff_left (hgood.allSteps_stepSplits hV hall)
  · intro h val timeToUse timeAvailable hpos hle
    let op : Op V := .add (1 + timeAvailable) (1 + 2 * timeAvailable) [val]
    have hvalid : Valid (leaving timeToUse timeAvailable) op := by
      refine ⟨by omega, ?_, ?_, rfl⟩
      · change 1 ≤ 1 + 2 * timeAvailable
        omega
      · change 1 < 1 + 2 * timeAvailable
        omega
    have hbefore : op.Before (leaving timeToUse timeAvailable : FoldingBucketer V).limit := by
      change 1 + 2 * timeAvailable < 1 + 1000 * (2 ^ 31 * (timeAvailable + timeToUse))
      omega
    have hrun : IsRun (leaving timeToUse timeAvailable) [op] :=
      ⟨_, _, _, _, by omega, setGenesisTime_create.trans (if_neg (by decide)), hvalid,
        fun _ _ => trivial⟩
    have htiles := (h _ _ hrun).mpr (forall_mem_singleton.mpr hbefore)
    obtain ⟨b, hrun, -⟩ := htiles [op] (prefix_refl _)
    obtain ⟨b', hstep, -⟩ := exists_of_bind hrun
    exact ge_scale_of_stepSplits hpos hle (stepSplits_of_step hstep)

/-- With buckets of size 1, blank time up to the limit needs a fold that makes the multiple 0. And
0.1 as a `double` cannot be added for the second half of a bucket of size 6, since a third of three
times 0.1 is more than 0.1. -/
theorem not_tilesThroughout_blank_float :
    (AllSteps step Valid (started 1 1 .proportionalToTime 1 : FoldingBucketer (BitVec 64))
        [.forceFold (2 ^ 31), .addBlanksTo (1 + 1000 * 2 ^ 31)] ∧
      ¬ TilesThroughout (started 1 1 .proportionalToTime 1 : FoldingBucketer (BitVec 64))
        [.forceFold (2 ^ 31), .addBlanksTo (1 + 1000 * 2 ^ 31)]) ∧
    AllSteps step Valid (started 1 6 .proportionalToTime 1 : FoldingBucketer Float)
        [.add 4 7 [0.1]] ∧
      ¬ TilesThroughout (started 1 6 .proportionalToTime 1 : FoldingBucketer Float)
        [.add 4 7 [0.1]] := by
  have hgood : Good (started 1 1 .proportionalToTime 1 : FoldingBucketer (BitVec 64)) :=
    good_started (by decide) (by decide)
  have hall : AllSteps step Valid (started 1 1 .proportionalToTime 1 : FoldingBucketer (BitVec 64))
      [.forceFold (2 ^ 31), .addBlanksTo (1 + 1000 * 2 ^ 31)] := by
    refine ⟨⟨31, by decide, rfl⟩, fun b hb => ⟨?_, fun _ _ => trivial⟩⟩
    obtain ⟨b', hb', -, -, htime⟩ := hgood.forceFold_spec (show 31 < 32 by decide)
    obtain rfl := mem_unique hb' hb
    change b'.lastChangeTimePlus1 ≤ _
    rw [htime]
    change 1 ≤ _
    omega
  refine ⟨⟨hall, fun htiles => ?_⟩, ⟨⟨by decide, by decide, by decide, rfl⟩, fun _ _ => trivial⟩,
    fun htiles => ?_⟩
  · have hbefore := hgood.before_of_tilesThroughout hall htiles (.addBlanksTo _)
      (mem_cons_of_mem _ (mem_cons_self ..))
    exact absurd hbefore (by decide : ¬ 1 + 1000 * 2 ^ 31 < 1 + 1000 * (2 ^ 31 * 1))
  · obtain ⟨b, hrun, -⟩ := htiles _ (prefix_refl _)
    rw [foldlM_cons] at hrun
    obtain ⟨b', hstep, -⟩ := exists_of_bind hrun
    have hge : Val.ge (0.1 : Float) (Val.scale 0.1 3 3) = true :=
      ge_scale_of_stepSplits (by decide) (by decide) (stepSplits_of_step hstep)
    exact absurd hge (by decide)

end Runs

end Kerninst.FoldingBucketer
