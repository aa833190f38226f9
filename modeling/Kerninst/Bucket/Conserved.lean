import Kerninst.Bucket.Runs

/-!
# Bucketing loses nothing

Values of `n` bits, combined proportionally to time, go from one place to another: from an interval
to the buckets that it is split over, and from the current bucket to those handed out. What all
buckets hold is what was passed in, except that sums are cut to `n` bits (`Leaves`).

A fold changes values only if it is forced, when the number of buckets is odd and the current one
gets a longer time. Those at 1000 buckets do not.
-/

namespace Kerninst.FoldingBucketer

open List Option

variable {n : Nat}

/-! ## What there is -/

/-- `b` is left of `a`, apart from what exceeds `n` bits. -/
def Leaves (n a b : Nat) : Prop := ∃ k, b + k * 2 ^ n = a

section

variable {a b c d : Nat}

theorem Leaves.refl (a : Nat) : Leaves n a a := ⟨0, by omega⟩

section Leaving

variable (h : Leaves n a b)
include h

theorem Leaves.trans (h' : Leaves n b c) : Leaves n a c := by
  obtain ⟨k, rfl⟩ := h
  obtain ⟨j, rfl⟩ := h'
  exact ⟨j + k, by rw [Nat.add_mul, Nat.add_assoc]⟩

theorem Leaves.add_left (c : Nat) : Leaves n (c + a) (c + b) := by
  obtain ⟨k, rfl⟩ := h
  exact ⟨k, Nat.add_assoc ..⟩

theorem Leaves.add_right (c : Nat) : Leaves n (a + c) (b + c) := by
  obtain ⟨k, rfl⟩ := h
  exact ⟨k, Nat.add_right_comm ..⟩

theorem Leaves.mod_eq : b % 2 ^ n = a % 2 ^ n := by
  obtain ⟨k, rfl⟩ := h
  exact (Nat.add_mul_mod_self_right ..).symm

theorem Leaves.eq_of_lt (hlt : a < 2 ^ n) : b = a := by
  obtain ⟨k, rfl⟩ := h
  cases k with
  | zero => rw [Nat.zero_mul, Nat.add_zero]
  | succ k =>
    rw [Nat.add_mul, Nat.one_mul] at hlt
    omega

end Leaving

end

theorem leaves_toNat_add (v w : BitVec n) : Leaves n (v.toNat + w.toNat) (v + w).toNat := by
  refine ⟨(v.toNat + w.toNat) / 2 ^ n, ?_⟩
  rw [BitVec.toNat_add, Nat.mul_comm]
  exact Nat.mod_add_div ..

/-- The value at a position, which is 0 if there is none. -/
def valueAt (vals : List (BitVec n)) (i : Nat) : Nat := (vals.getD i 0).toNat

/-- The value handed out, which is 0 for an undefined bucket. -/
def eventAt (i : Nat) : BucketEvent (BitVec n) → Nat
  | .bucket _ vals _ _ => valueAt vals i
  | .undefinedBucket _ | .fold _ => 0

def handedOut (events : List (BucketEvent (BitVec n))) (i : Nat) : Nat :=
  (events.map (eventAt i)).sum

/-- What all buckets hold, including the one that is not finished. -/
def held (b : FoldingBucketer (BitVec n)) (i : Nat) : Nat :=
  handedOut b.told i + valueAt b.currValues i

def passedBy (i : Nat) : Op (BitVec n) → Nat
  | .add _ _ deltavals => valueAt deltavals i
  | .addBlanksTo _ | .forceFold _ => 0

/-- All that was passed to `add`. -/
def passed (ops : List (Op (BitVec n))) (i : Nat) : Nat := (ops.map (passedBy i)).sum

theorem handedOut_append {events : List (BucketEvent (BitVec n))} {event : BucketEvent (BitVec n)}
    {i : Nat} : handedOut (events ++ [event]) i = handedOut events i + eventAt i event := by
  rw [handedOut, map_append, sum_append]
  exact congrArg (_ + ·) (Nat.add_zero _)

variable {vals : List (BitVec n)}

theorem valueAt_of_zero (h : ∀ v ∈ vals, v = 0) (i : Nat) : valueAt vals i = 0 := by
  rw [valueAt, getD_eq_getElem?_getD]
  cases hi : vals[i]? with
  | none => rfl
  | some v => rw [getD_some, h v (mem_of_getElem? hi)]; rfl

theorem valueAt_map_zero (i : Nat) : valueAt (vals.map fun _ => (0 : BitVec n)) i = 0 := by
  refine valueAt_of_zero (fun v hv => ?_) i
  obtain ⟨_, -, rfl⟩ := mem_map.mp hv
  rfl

/-! ## Where it goes -/

/-- **A value is split.** -/
theorem leaves_distribute {timeToUse timeAvailable : Nat} {currValues deltavals : List (BitVec n)}
    {r : List (BitVec n) × List (BitVec n)}
    (h : distribute timeToUse timeAvailable currValues deltavals = some r) (i : Nat) :
    Leaves n (valueAt currValues i + valueAt deltavals i) (valueAt r.1 i + valueAt r.2 i) := by
  obtain ⟨hlen, hge, rfl⟩ := distribute_eq_some.mp h
  by_cases hi : i < currValues.length
  · have hi' := hlen ▸ hi
    have hle := of_decide_eq_true (hge _ (getElem_mem hi'))
    simp only [valueAt, getD_eq_getElem?_getD, getElem?_zipWith, getElem?_map,
      getElem?_eq_getElem hi, getElem?_eq_getElem hi', Option.map_some, getD_some,
      BitVec.toNat_sub_of_le hle]
    convert (leaves_toNat_add _ _).add_right _ using 1
    omega
  · simpa [valueAt, hi, hlen] using Leaves.refl 0

/-- An undefined bucket holds nothing. -/
def Blank (b : FoldingBucketer (BitVec n)) : Prop :=
  b.currValuesAreUndefined = true → ∀ v ∈ b.currValues, v = 0

section

variable {b b' : FoldingBucketer (BitVec n)} {event : BucketEvent (BitVec n)} {i : Nat}

theorem blank_nextFolded : Blank (b.nextFolded event) := by
  have hnext : Blank (b.next event) := by
    rintro - v hv
    obtain ⟨_, -, rfl⟩ := mem_map.mp hv
    rfl
  unfold nextFolded
  split
  · exact hnext
  · exact hnext

/-- A fold at 1000 buckets moves nothing. -/
theorem held_nextFolded : held (b.nextFolded event) i = handedOut b.told i + eventAt i event := by
  have hzero : valueAt (b.currValues.map fun _ => (0 : BitVec n)) i = 0 := valueAt_map_zero i
  have hnext : held (b.next event) i = handedOut b.told i + eventAt i event := by
    change handedOut (b.told ++ [event]) i +
      valueAt (b.currValues.map fun _ => (0 : BitVec n)) i = _
    rw [hzero, handedOut_append, Nat.add_zero]
  unfold nextFolded
  split
  · rw [← hnext]
    change handedOut ((b.next event).told ++ [.fold _]) i + valueAt (b.next event).currValues i = _
    rw [handedOut_append]
    rfl
  · exact hnext

theorem held_afterBucket : held (b.afterBucket vals) i = handedOut b.told i + valueAt vals i :=
  held_nextFolded

/-- Blank time moves nothing. -/
theorem held_afterBlank (h : b.howValuesAreCombined = .proportionalToTime) (hblank : Blank b) :
    held b.afterBlank i = held b i := by
  rw [afterBlank, held_nextFolded, blankEvent]
  congr 1
  split
  case isTrue hundefined => exact (valueAt_of_zero (hblank hundefined) i).symm
  case isFalse => rw [makeFullBucketCurrValuesPresentable, h]; rfl

/-! ## Rounds and operations -/

theorem Good.held_addBlanksTo (h : Good b) (hhow : b.howValuesAreCombined = .proportionalToTime)
    (hblank : Blank b) {t : Nat} (hrun : b.addBlanksTo t = some b') :
    Blank b' ∧ held b' i = held b i := by
  have hloop := h.addBlanksTo_induct
    (P := fun b₁ => Blank b₁ ∧ held b₁ i = held b i) ?round ⟨hblank, rfl⟩ hrun
  case round =>
    rintro b₁ hfilling - ⟨hblank₁, hheld⟩
    have hhow₁ := hfilling.same.combined.trans hhow
    exact ⟨blank_nextFolded, (held_afterBlank hhow₁ hblank₁).trans hheld⟩
  obtain ⟨b₁, hheld, -, -, rfl⟩ := hloop
  exact hheld

theorem Good.held_addTo (h : Good b) (hhow : b.howValuesAreCombined = .proportionalToTime)
    {t : Nat} {deltavals : List (BitVec n)} (hrun : b.addTo t deltavals = some b') :
    Blank b' ∧ Leaves n (held b i + valueAt deltavals i) (held b' i) := by
  have hareas : b.deltaAreas t deltavals = deltavals := by rw [deltaAreas, hhow]
  have hloop := h.addTo_induct
    (P := fun s => Leaves n (held b i + valueAt deltavals i) (held s.1 i + valueAt s.2 i))
    ?round (hareas.symm ▸ Leaves.refl _) hrun
  case round =>
    intro b₁ deltavals₁ r _ _ _ hr hleaves
    refine hleaves.trans ?_
    rw [held_afterBucket, held, Nat.add_assoc, Nat.add_assoc]
    exact (leaves_distribute hr i).add_left _
  obtain ⟨s, hleaves, ⟨hfilling, hlen⟩, -, rfl⟩ := hloop
  refine ⟨fun hundefined => (Bool.false_ne_true hundefined).elim, hleaves.trans ?_⟩
  change Leaves n (handedOut s.1.told i + _ + _) (handedOut s.1.told i + _)
  rw [Nat.add_assoc]
  have hlen' := hlen.trans hfilling.same.length.symm
  refine Leaves.add_left ?_ _
  by_cases hi : i < s.1.currValues.length
  · simpa [valueAt, hi, hlen'] using leaves_toNat_add _ _
  · simpa [valueAt, hi, hlen'] using Leaves.refl 0

theorem Good.held_add (h : Good b) (hhow : b.howValuesAreCombined = .proportionalToTime)
    (hblank : Blank b) {startTime endTimePlus1 : Nat} {deltavals : List (BitVec n)}
    (hrun : b.add startTime endTimePlus1 deltavals = some b') :
    Blank b' ∧ Leaves n (held b i + valueAt deltavals i) (held b' i) := by
  simp only [add, do_eq_some, check_eq_some] at hrun
  obtain ⟨_, -, _, -, _, -, b₁, hblanks, _, -, hrun⟩ := hrun
  obtain ⟨hgood, hsame, -⟩ := h.addBlanksBefore_keeps hblanks
  have hheld : held b₁ i = held b i := by
    unfold addBlanksBefore at hblanks
    split at hblanks
    case isTrue => exact (h.held_addBlanksTo hhow hblank hblanks).2
    case isFalse => rw [some.inj hblanks]
  rw [← hheld]
  exact hgood.held_addTo (hsame.combined.trans hhow) hrun

/-! ## Runs -/

/-- Folds are not forced. -/
def Unforced (b : FoldingBucketer (BitVec n)) : Op (BitVec n) → Prop
  | .forceFold _ => False
  | op => Valid b op

theorem Unforced.valid {op : Op (BitVec n)} (h : Unforced b op) : Valid b op := by
  cases op with
  | add | addBlanksTo => exact h
  | forceFold => exact h.elim

theorem Good.held_step (h : Good b) (hhow : b.howValuesAreCombined = .proportionalToTime)
    (hblank : Blank b) {op : Op (BitVec n)} (hop : Unforced b op) (hrun : b.step op = some b') :
    Blank b' ∧ Leaves n (held b i + passedBy i op) (held b' i) := by
  cases op with
  | add startTime endTimePlus1 deltavals => exact h.held_add hhow hblank hrun
  | addBlanksTo timePlus1 =>
    obtain ⟨hblank', hheld⟩ := h.held_addBlanksTo (i := i) hhow hblank hrun
    exact ⟨hblank', hheld ▸ Leaves.refl _⟩
  | forceFold multiple => exact hop.elim

theorem Good.held_run {ops : List (Op (BitVec n))} : ∀ {b : FoldingBucketer (BitVec n)}, Good b →
    b.howValuesAreCombined = .proportionalToTime → Blank b → AllSteps step Unforced b ops →
      ops.foldlM step b = some b' → Leaves n (held b i + passed ops i) (held b' i) := by
  induction ops with
  | nil =>
    intro b _ _ _ _ hrun
    obtain rfl := some.inj hrun
    exact Leaves.refl _
  | cons op ops ih =>
    intro b h hhow hblank hall hrun
    obtain ⟨b₁, hstep, hrest⟩ := exists_of_bind hrun
    obtain ⟨hgood, hsame, -⟩ := h.step_keeps hall.1.valid hstep
    obtain ⟨hblank₁, hleaves⟩ := h.held_step (i := i) hhow hblank hall.1 hstep
    have hsum : passed (op :: ops) i = passedBy i op + passed ops i := sum_cons
    rw [hsum, ← Nat.add_assoc]
    exact (hleaves.add_right _).trans
      (ih hgood (hsame.combined.trans hhow) hblank₁ (hall.2 b₁ hstep) hrest)

/-- **Bucketing loses nothing.** Within the time limit the run succeeds; if it does, the buckets
hold all that was passed in: as sums of `n` bits in any case, and as integers if that fits. -/
theorem held_eq_passed (numValues ibaseBucketSize gTime : Nat) (b : FoldingBucketer (BitVec n))
    (ops : List (Op (BitVec n))) (hbase : 0 < ibaseBucketSize)
    (hstarted : (create numValues ibaseBucketSize .proportionalToTime).setGenesisTime gTime =
      some b)
    (hall : AllSteps step Unforced b ops) :
    ((∀ op ∈ ops, op.Before b.limit) → (ops.foldlM step b).isSome) ∧
      ∀ b', ops.foldlM step b = some b' → ∀ i,
        held b' i % 2 ^ n = passed ops i % 2 ^ n ∧
          (passed ops i < 2 ^ n → held b' i = passed ops i) := by
  obtain ⟨rfl, hgood⟩ := good_of_setGenesisTime hbase hstarted
  have hzero : ∀ v ∈ replicate numValues (0 : BitVec n), v = 0 :=
    fun v hv => eq_of_mem_replicate hv
  refine ⟨fun hbefore => ?_, fun b' hrun i => ?_⟩
  · have hvalid := hall.mono fun _ _ h => h.valid
    obtain ⟨b', hrun, -⟩ := hgood.tilesThroughout hvalid hbefore
      (hgood.allSteps_stepSplits (Val.shrinks_bitVec n) hvalid) ops (prefix_refl _)
    exact isSome_of_eq_some hrun
  · have hleaves := hgood.held_run (i := i) rfl (fun _ => hzero) hall hrun
    have hnothing : held (started numValues ibaseBucketSize .proportionalToTime gTime :
        FoldingBucketer (BitVec n)) i = 0 := (Nat.zero_add _).trans (valueAt_of_zero hzero i)
    rw [hnothing, Nat.zero_add] at hleaves
    exact ⟨hleaves.mod_eq, hleaves.eq_of_lt⟩

/-- Two values with blank time between them, in buckets of size 1 that are folded. -/
theorem held_after_folds : ∃ b' : FoldingBucketer (BitVec 64),
    [Op.add 1 1001 [7], .add 1500 2400 [5]].foldlM step (started 1 1 .proportionalToTime 1) =
      some b' ∧ 1 < b'.bucketSize ∧ held b' 0 = 12 := by
  have hgood : Good (started 1 1 .proportionalToTime 1 : FoldingBucketer (BitVec 64)) :=
    good_started (by decide) (by decide)
  have hall : AllSteps step Unforced (started 1 1 .proportionalToTime 1)
      [.add 1 1001 [7#64], .add 1500 2400 [5]] := by
    refine ⟨⟨by decide, by decide, by decide, rfl⟩, fun b₁ h₁ => ⟨?_, fun _ _ => trivial⟩⟩
    obtain ⟨hgood₁, hsame₁, htime₁⟩ := hgood.add_keeps h₁
    have hstarted := hgood₁.started
    exact ⟨by decide, by omega, by omega, hsame₁.length.symm⟩
  obtain ⟨hsucceeds, hheld⟩ := held_eq_passed 1 1 1 _ _ (by decide)
    (setGenesisTime_create.trans (if_neg (by decide))) hall
  obtain ⟨b', hrun⟩ := isSome_iff_exists.mp
    (hsucceeds (forall_mem_cons.mpr ⟨(by decide : 1001 < _),
      forall_mem_singleton.mpr (by decide : 2400 < _)⟩))
  refine ⟨b', hrun, ?_, (hheld b' hrun 0).2 (by decide)⟩
  simp only [foldlM_cons, foldlM_nil, do_eq_some] at hrun
  obtain ⟨b₁, h₁, b₂, h₂, rfl⟩ := hrun
  obtain ⟨hgood₁, hsame₁, -⟩ := hgood.add_keeps h₁
  obtain ⟨hgood₂, hsame₂, htime⟩ := hgood₁.add_keeps h₂
  -- a thousand buckets of size 1 would end before 2400
  have hgenesis : b₂.genesisTime = 1 := hsame₂.genesis.trans hsame₁.genesis
  have hcount := hgood₂.count
  have hunfinished := hgood₂.unfinished
  rw [hgood₂.starts, htime, hgenesis] at hunfinished
  by_contra hsize
  have hproduct : b₂.currNumBuckets * b₂.bucketSize ≤ b₂.currNumBuckets * 1 :=
    Nat.mul_le_mul_left _ (by omega)
  omega

end

end Kerninst.FoldingBucketer
