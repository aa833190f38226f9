import Kerninst.Bucket.Runs

/-!
# What is told of an addition

Without forced folds, the derived class is told of buckets with consecutive numbers up to 999, then
of a fold to twice the multiple, then of buckets from 500 on, and so on (`follow`). Each bucket was
filled in the time that its number denotes with the width of that moment (`denotedInterval`). The
time that the buckets cover grows with each of them, and a fold does not change it.
-/

namespace Kerninst.FoldingBucketer

open List Option

variable {V : Type}

/-- The interval of a bucket, for buckets of some width. -/
def denotedInterval (genesisTime width bucketNum : Nat) : Nat × Nat :=
  (genesisTime + bucketNum * width, genesisTime + (bucketNum + 1) * width)

/-- The number of buckets and the multiple of the base width, after one more event. -/
def follow (genesisTime base : Nat) (s : Nat × Nat) : BucketEvent V → Option (Nat × Nat)
  | .bucket bucketNum _ startTime endTimePlus1 =>
    if bucketNum = s.1 ∧ s.1 < 1000 ∧
      denotedInterval genesisTime (s.2 * base) s.1 = (startTime, endTimePlus1) then
      some (s.1 + 1, s.2) else none
  | .undefinedBucket bucketNum =>
    if bucketNum = s.1 ∧ s.1 < 1000 then some (s.1 + 1, s.2) else none
  | .fold newMultiple =>
    if s.1 = 1000 ∧ newMultiple = s.2 * 2 then some (500, newMultiple) else none

section

variable {genesisTime base : Nat} {s s' : Nat × Nat} {event : BucketEvent V}

/-- What an event can be. -/
theorem follow_cases (h : follow genesisTime base s event = some s') :
    (∃ vals startTime endTimePlus1, event = .bucket s.1 vals startTime endTimePlus1 ∧
        denotedInterval genesisTime (s.2 * base) s.1 = (startTime, endTimePlus1) ∧
        s' = (s.1 + 1, s.2)) ∨
      (event = .undefinedBucket s.1 ∧ s' = (s.1 + 1, s.2)) ∨
      (event = .fold (s.2 * 2) ∧ s.1 = 1000 ∧ s' = (500, s.2 * 2)) := by
  cases event with
  | bucket bucketNum vals startTime endTimePlus1 =>
    rw [follow, ite_none_right_eq_some] at h
    obtain ⟨⟨rfl, -, htime⟩, hs'⟩ := h
    exact .inl ⟨vals, startTime, endTimePlus1, rfl, htime, (some.inj hs').symm⟩
  | undefinedBucket bucketNum =>
    rw [follow, ite_none_right_eq_some] at h
    obtain ⟨⟨rfl, -⟩, hs'⟩ := h
    exact .inr (.inl ⟨rfl, (some.inj hs').symm⟩)
  | fold newMultiple =>
    rw [follow, ite_none_right_eq_some] at h
    obtain ⟨⟨hs, rfl⟩, hs'⟩ := h
    exact .inr (.inr ⟨rfl, hs, (some.inj hs').symm⟩)

/-- Time does not go back. -/
theorem mul_le_of_follow (h : follow genesisTime base s event = some s') :
    s.1 * s.2 ≤ s'.1 * s'.2 := by
  obtain ⟨_, _, _, -, -, rfl⟩ | ⟨-, rfl⟩ | ⟨-, hs, rfl⟩ := follow_cases h
  · exact Nat.mul_le_mul_right _ (Nat.le_succ _)
  · exact Nat.mul_le_mul_right _ (Nat.le_succ _)
  · rw [hs]
    omega

theorem mul_le_of_follow_all {events : List (BucketEvent V)}
    (h : events.foldlM (follow genesisTime base) s = some s') : s.1 * s.2 ≤ s'.1 * s'.2 := by
  refine foldlM_keeps (I := fun s₁ => s.1 * s.2 ≤ s₁.1 * s₁.2) events (le_refl _) ?_ h
  intro event _ s₁ s₂ hle hfollow
  exact hle.trans (mul_le_of_follow hfollow)

end

/-- From `b` to `b'`, the derived class was told of events that follow each other. -/
def Follows (b b' : FoldingBucketer V) : Prop :=
  (b'.genesisTime = b.genesisTime ∧ b'.theBaseBucketSize = b.theBaseBucketSize) ∧
    ∃ events, b'.told = b.told ++ events ∧
      events.foldlM (follow b.genesisTime b.theBaseBucketSize)
        (b.currNumBuckets, b.currMultipleOfBaseBucketWidth) =
          some (b'.currNumBuckets, b'.currMultipleOfBaseBucketWidth)

variable {b b' b'' : FoldingBucketer V}

theorem Follows.refl (b : FoldingBucketer V) : Follows b b :=
  ⟨⟨rfl, rfl⟩, [], (append_nil _).symm, rfl⟩

theorem Follows.trans (h : Follows b b') (h' : Follows b' b'') : Follows b b'' := by
  obtain ⟨⟨hgenesis, hbase⟩, events, htold, hevents⟩ := h
  obtain ⟨⟨hgenesis', hbase'⟩, events', htold', hevents'⟩ := h'
  rw [hgenesis, hbase] at hevents'
  refine ⟨⟨hgenesis'.trans hgenesis, hbase'.trans hbase⟩, events ++ events', ?_, ?_⟩
  · rw [htold', htold, append_assoc]
  · rw [foldlM_append, hevents]
    exact hevents'

variable [Val V]

/-- A bucket, and maybe a fold. -/
theorem Full.follows_nextFolded {event : BucketEvent V} (h : Full b) (hex : ¬ b.Exhausted)
    (hevent : follow b.genesisTime b.theBaseBucketSize
      (b.currNumBuckets, b.currMultipleOfBaseBucketWidth) event =
        some (b.currNumBuckets + 1, b.currMultipleOfBaseBucketWidth)) :
    Follows b (b.nextFolded event) := by
  have hnext : Follows b (b.next event) := by
    refine ⟨⟨rfl, rfl⟩, [event], rfl, ?_⟩
    rw [foldlM_cons, hevent, currNumBuckets_next]
    rfl
  unfold nextFolded
  split
  case isTrue hn =>
    have hdouble := double_lt h.multiple fun hm => hex ⟨hn, hm⟩
    have hmod : b.currMultipleOfBaseBucketWidth * 2 % 2 ^ 32 =
        b.currMultipleOfBaseBucketWidth * 2 := Nat.mod_eq_of_lt (lt_of_double hdouble)
    have h1000 : (b.next event).currNumBuckets = 1000 := by rw [currNumBuckets_next, hn]
    have h500 : (b.next event).folded.currNumBuckets = 500 := by
      change (b.next event).currNumBuckets / 2 + 0 = 500
      rw [h1000]
    refine hnext.trans ⟨⟨rfl, rfl⟩, [.fold (b.currMultipleOfBaseBucketWidth * 2 % 2 ^ 32)], rfl, ?_⟩
    rw [foldlM_cons, h1000, h500]
    change (follow _ _ (1000, b.currMultipleOfBaseBucketWidth) (.fold _) >>= _) =
      some (500, b.currMultipleOfBaseBucketWidth * 2 % 2 ^ 32)
    rw [hmod, follow, if_pos ⟨rfl, rfl⟩]
    rfl
  case isFalse => exact hnext

omit [Val V] in
/-- A bucket was filled in the time that its number denotes. -/
theorem Good.follow_bucketEvent (h : Good b) (vals : List V) :
    follow b.genesisTime b.theBaseBucketSize (b.currNumBuckets, b.currMultipleOfBaseBucketWidth)
      (b.bucketEvent vals) = some (b.currNumBuckets + 1, b.currMultipleOfBaseBucketWidth) := by
  refine if_pos ⟨rfl, h.count, ?_⟩
  rw [denotedInterval, ← h.size, h.starts, Nat.succ_mul, Nat.add_assoc]

theorem Good.follows_afterBlank (h : Good b) (hex : ¬ b.Exhausted) : Follows b b.afterBlank := by
  refine (h.full_filled b.currValues b.currValuesAreUndefined).follows_nextFolded hex ?_
  unfold blankEvent
  split
  · exact if_pos ⟨rfl, h.count⟩
  · exact h.follow_bucketEvent _

theorem Good.follows_afterBucket (h : Good b) (hex : ¬ b.Exhausted) (vals : List V) :
    Follows b (b.afterBucket vals) :=
  (h.full_filled vals false).follows_nextFolded hex (h.follow_bucketEvent vals)

theorem Good.follows_addBlanksTo (h : Good b) {t : Nat} (hrun : b.addBlanksTo t = some b') :
    Follows b b' := by
  obtain ⟨b₁, hfollows, -, -, rfl⟩ := h.addBlanksTo_induct (P := Follows b)
    (fun b₁ hfilling hex hfollows => hfollows.trans (hfilling.good.follows_afterBlank hex))
    (Follows.refl b) hrun
  exact hfollows

variable {deltavals : List V}

theorem Good.follows_addTo (h : Good b) {t : Nat} (hrun : b.addTo t deltavals = some b') :
    Follows b b' := by
  obtain ⟨s, hfollows, -, -, rfl⟩ := h.addTo_induct (P := fun s => Follows b s.1)
    (fun b₁ _ r hfilling _ hex _ hfollows =>
      hfollows.trans (hfilling.good.follows_afterBucket hex r.1))
    (Follows.refl b) hrun
  exact hfollows

/-- `add` itself does not make undefined buckets. -/
theorem Good.defined_addTo (h : Good b) {t k : Nat} (hrun : b.addTo t deltavals = some b')
    (hk : .undefinedBucket k ∈ b'.told) : .undefinedBucket k ∈ b.told := by
  have hround : ∀ (b₁ : FoldingBucketer V) (vals : List V),
      .undefinedBucket k ∈ (b₁.afterBucket vals).told → .undefinedBucket k ∈ b₁.told := by
    intro b₁ vals hmem
    unfold FoldingBucketer.afterBucket nextFolded bucketEvent at hmem
    split at hmem
    · simpa [next, filled, folded] using hmem
    · simpa [next, filled] using hmem
  obtain ⟨s, hdefined, -, -, rfl⟩ := h.addTo_induct
    (P := fun s => .undefinedBucket k ∈ s.1.told → .undefinedBucket k ∈ b.told)
    (fun b₁ _ r _ _ _ _ ih hmem => ih (hround b₁ r.1 hmem)) id hrun
  exact hdefined hk

/-- **What is told of an addition.** -/
theorem Good.follows_add (h : Good b) {startTime endTimePlus1 : Nat}
    (hrun : b.add startTime endTimePlus1 deltavals = some b') : Follows b b' := by
  simp only [add, do_eq_some, check_eq_some] at hrun
  obtain ⟨_, -, _, -, _, -, b₁, hblanks, _, -, hrun⟩ := hrun
  have hgood := (h.addBlanksBefore_keeps hblanks).1
  have hfirst : Follows b b₁ := by
    unfold addBlanksBefore at hblanks
    split at hblanks
    case isTrue => exact h.follows_addBlanksTo hblanks
    case isFalse => exact some.inj hblanks ▸ Follows.refl b
  exact hfirst.trans (hgood.follows_addTo hrun)

end Kerninst.FoldingBucketer
