import Mathlib.Logic.Relation
import Mathlib.Data.List.Induction

/-!
# Greedy path covers

A list of candidate links is processed in order, and a link is accepted if it is allowed
and if the accepted links then still form disjoint paths: its source has no accepted link
yet, nothing is linked to its target, and its target does not already lead to its source.
`greedyPaths ok es` are the links accepted from `es`.

The order of the candidates decides which points end up at the start of a path.
`greedyPaths_avoids_iff` says when a given point does: every allowed candidate into it was
too late, because its source had been linked to something else or because the candidate
would have closed a cycle.
-/

namespace Kerninst

open Relation List

universe u

variable {α : Type u}

/-- `b` is reached from `a` along the links of `L`. -/
def Path (L : List (α × α)) : α → α → Prop := ReflTransGen fun a b => (a, b) ∈ L

/-- `e` is allowed and joins two paths of `L`. -/
structure Joins (ok : α → α → Prop) (L : List (α × α)) (e : α × α) : Prop where
  allowed : ok e.1 e.2
  source_free : ∀ b, (e.1, b) ∉ L
  target_free : ∀ a, (a, e.2) ∉ L
  no_cycle : ¬ Path L e.2 e.1

open Classical in
/-- One candidate. -/
noncomputable def greedyStep (ok : α → α → Prop) (L : List (α × α)) (e : α × α) : List (α × α) :=
  if Joins ok L e then L ++ [e] else L

/-- The links accepted from a list of candidates. -/
noncomputable def greedyPaths (ok : α → α → Prop) (es : List (α × α)) : List (α × α) :=
  es.foldl (greedyStep ok) []

variable {ok : α → α → Prop} {L : List (α × α)} {e : α × α}

theorem greedyStep_of_joins (h : Joins ok L e) : greedyStep ok L e = L ++ [e] := if_pos h

theorem greedyStep_of_not_joins (h : ¬ Joins ok L e) : greedyStep ok L e = L := if_neg h

@[simp] theorem greedyPaths_nil : greedyPaths ok [] = [] := rfl

@[simp] theorem greedyPaths_concat (es : List (α × α)) (e : α × α) :
    greedyPaths ok (es ++ [e]) = greedyStep ok (greedyPaths ok es) e := by
  simp [greedyPaths]

/-- Accepted links stay. -/
theorem subset_greedyStep : L ⊆ greedyStep ok L e := by
  by_cases h : Joins ok L e
  · rw [greedyStep_of_joins h]
    exact subset_append_left ..
  · rw [greedyStep_of_not_joins h]
    exact Subset.refl _

theorem greedyPaths_subset_append (es es' : List (α × α)) :
    greedyPaths ok es ⊆ greedyPaths ok (es ++ es') := by
  induction es' using reverseRecOn with
  | nil => rw [append_nil]; exact Subset.refl _
  | append_singleton es' e ih =>
    rw [← append_assoc, greedyPaths_concat]
    exact Subset.trans ih subset_greedyStep

/-- What is accepted is one of the candidates, and joined two paths when it came up. -/
theorem exists_joins_of_mem_greedyPaths : ∀ {es : List (α × α)}, e ∈ greedyPaths ok es →
    ∃ pre post, es = pre ++ e :: post ∧ Joins ok (greedyPaths ok pre) e := by
  intro es
  induction es using reverseRecOn with
  | nil => intro he; exact absurd he (by simp)
  | append_singleton es e' ih =>
    intro he
    rw [greedyPaths_concat] at he
    by_cases hj : Joins ok (greedyPaths ok es) e'
    · rw [greedyStep_of_joins hj] at he
      rcases mem_append.mp he with hold | hnew
      · obtain ⟨pre, post, rfl, hpre⟩ := ih hold
        exact ⟨pre, post ++ [e'], by simp, hpre⟩
      · obtain rfl := mem_singleton.mp hnew
        exact ⟨es, [], rfl, hj⟩
    · rw [greedyStep_of_not_joins hj] at he
      obtain ⟨pre, post, rfl, hpre⟩ := ih he
      exact ⟨pre, post ++ [e'], by simp, hpre⟩

/-- **Starting points.** Nothing is linked to `c` exactly if every allowed candidate `(a, c)`
came too late: `a` was linked already, or was reached from `c` already. -/
theorem greedyPaths_avoids_iff {c : α} {es : List (α × α)} : (∀ a, (a, c) ∉ greedyPaths ok es) ↔
      ∀ pre a post, es = pre ++ (a, c) :: post → ok a c →
        (∃ b, (a, b) ∈ greedyPaths ok pre) ∨ Path (greedyPaths ok pre) c a := by
  constructor
  · rintro havoid pre a post rfl hok
    by_contra hlate
    have hfree : ∀ a', (a', c) ∉ greedyPaths ok pre := fun a' ha' =>
      havoid a' (greedyPaths_subset_append pre _ ha')
    have hj : Joins ok (greedyPaths ok pre) (a, c) :=
      ⟨hok, fun b hb => hlate (.inl ⟨b, hb⟩), hfree, fun hp => hlate (.inr hp)⟩
    have hmem : (a, c) ∈ greedyPaths ok (pre ++ [(a, c)]) := by
      rw [greedyPaths_concat, greedyStep_of_joins hj]
      simp
    refine havoid a ?_
    have hlater : (a, c) ∈ greedyPaths ok (pre ++ [(a, c)] ++ post) :=
      greedyPaths_subset_append _ post hmem
    rwa [append_assoc] at hlater
  · intro hlate a ha
    obtain ⟨pre, post, hes, hj⟩ := exists_joins_of_mem_greedyPaths ha
    rcases hlate pre a post hes hj.allowed with ⟨b, hb⟩ | hp
    · exact hj.source_free b hb
    · exact hj.no_cycle hp

end Kerninst
