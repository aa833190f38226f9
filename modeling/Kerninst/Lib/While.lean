import Mathlib.Data.Option.Basic
import Mathlib.Logic.Relation

/-!
# While loops

`whileM cond body` performs `body` as long as `cond` holds, for at most a given number of rounds.
There is no result if a round fails, or if the rounds do not suffice.

`whileM_total` is the rule for total correctness, with an invariant and a measure that each round
decreases; `whileM_keeps` is the rule for loops of which it is known that they have a result.
-/

namespace Kerninst

universe u

variable {σ : Type u} (cond : σ → Bool) (body : σ → Option σ)

/-- The loop, with a bound on its rounds. -/
def whileM : Nat → σ → Option σ
  | 0, s => if cond s then none else some s
  | n + 1, s => if cond s then (body s).bind (whileM n) else some s

/-- A round. -/
def Round (s s' : σ) : Prop := cond s = true ∧ body s = some s'

variable {cond body}

theorem whileM_of_not {n : Nat} {s : σ} (h : cond s = false) : whileM cond body n s = some s := by
  cases n <;> simp [whileM, h]

/-- The first round of a loop that has a result, and the other rounds. -/
theorem exists_of_whileM {n : Nat} {s s' : σ} (hrun : whileM cond body n s = some s')
    (h : cond s = true) : ∃ s₁ m, body s = some s₁ ∧ whileM cond body m s₁ = some s' := by
  cases n with
  | zero => simp [whileM, h] at hrun
  | succ n =>
    simp only [whileM, h, if_true] at hrun
    obtain ⟨s₁, hs₁, hrest⟩ := Option.bind_eq_some_iff.mp hrun
    exact ⟨s₁, n, hs₁, hrest⟩

/-- In a loop that has a result, no round fails. -/
theorem exists_round_of_whileM {s s₁ : σ} (hrounds : Relation.ReflTransGen (Round cond body) s s₁)
    (h : cond s₁ = true) :
    ∀ {n : Nat} {s' : σ}, whileM cond body n s = some s' → ∃ s₂, body s₁ = some s₂ := by
  induction hrounds using Relation.ReflTransGen.head_induction_on with
  | refl =>
    intro n s' hrun
    obtain ⟨s₂, -, hs₂, -⟩ := exists_of_whileM hrun h
    exact ⟨s₂, hs₂⟩
  | head hround _ ih =>
    intro n s' hrun
    obtain ⟨s₂, m, hs₂, hrest⟩ := exists_of_whileM hrun hround.1
    obtain rfl := Option.mem_unique hs₂ hround.2
    exact ih hrest

/-- **Total correctness.** -/
theorem whileM_total {I : σ → Prop} (measure : σ → Nat)
    (hround : ∀ s, I s → cond s = true → ∃ s', body s = some s' ∧ I s' ∧ measure s' < measure s) :
    ∀ {n : Nat} {s : σ}, I s → measure s ≤ n →
      ∃ s', whileM cond body n s = some s' ∧ I s' ∧ cond s' = false := by
  intro n
  induction n with
  | zero =>
    intro s hI hn
    cases hcond : cond s with
    | true =>
      obtain ⟨s', -, -, hlt⟩ := hround s hI hcond
      omega
    | false => exact ⟨s, whileM_of_not hcond, hI, hcond⟩
  | succ n ih =>
    intro s hI hn
    cases hcond : cond s with
    | true =>
      obtain ⟨s₁, hs₁, hI₁, hlt⟩ := hround s hI hcond
      obtain ⟨s', hs', hI', hdone⟩ := ih hI₁ (by omega)
      exact ⟨s', by simp [whileM, hcond, hs₁, hs'], hI', hdone⟩
    | false => exact ⟨s, whileM_of_not hcond, hI, hcond⟩

/-- **Partial correctness.** -/
theorem whileM_keeps {I : σ → Prop}
    (hround : ∀ s s', I s → cond s = true → body s = some s' → I s') :
    ∀ {n : Nat} {s s' : σ}, I s → whileM cond body n s = some s' → I s' ∧ cond s' = false := by
  intro n
  induction n with
  | zero =>
    intro s s' hI h
    cases hcond : cond s with
    | true => simp [whileM, hcond] at h
    | false =>
      obtain rfl : s = s' := by simpa [whileM, hcond] using h
      exact ⟨hI, hcond⟩
  | succ n ih =>
    intro s s' hI h
    cases hcond : cond s with
    | true =>
      simp only [whileM, hcond, if_true] at h
      obtain ⟨s₁, hs₁, hrest⟩ := Option.bind_eq_some_iff.mp h
      exact ih (hround s s₁ hI hcond hs₁) hrest
    | false =>
      obtain rfl : s = s' := by simpa [whileM, hcond] using h
      exact ⟨hI, hcond⟩

/-- A loop commutes with a function that its condition and its body commute with. -/
theorem whileM_map {f : σ → σ}
    (hcond : ∀ s, cond (f s) = cond s) (hbody : ∀ s, body (f s) = (body s).map f) :
    ∀ (n : Nat) (s : σ), whileM cond body n (f s) = (whileM cond body n s).map f := by
  intro n
  induction n with
  | zero =>
    intro s
    rw [whileM, whileM, hcond, apply_ite (Option.map f)]
    rfl
  | succ n ih =>
    intro s
    rw [whileM, whileM, hcond, hbody, apply_ite (Option.map f), Option.bind_map, Option.map_bind]
    exact congrArg (fun g => if cond s then (body s).bind g else _) (funext ih)

end Kerninst
