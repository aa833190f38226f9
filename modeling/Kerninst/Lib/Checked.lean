import Mathlib.Algebra.Group.Nat.Defs
import Mathlib.Data.List.Basic

/-!
# Computations that may fail an assertion

A program with assertions is a function to `Option`, with `none` for a failed
assertion; `check` is the assertion itself. A loop over a list is `List.foldlM`,
and `foldlM_total` is its total-correctness rule: if every round succeeds and carries
an invariant of the part of the list already visited one element further, the loop
succeeds and the invariant holds of the whole list. A loop that fills a list is `List.mapM`.
Counts are 32-bit: `uintMax` is
`UINT_MAX`.
-/

namespace Kerninst

open List Option

universe u v w

/-- `UINT_MAX` -/
def uintMax : Nat := 2 ^ 32 - 1

/-- `assert(p)` -/
def check (p : Prop) [Decidable p] : Option Unit := if p then some () else none

theorem check_pos {p : Prop} [Decidable p] (h : p) : check p = some () := if_pos h

theorem check_neg {p : Prop} [Decidable p] (h : ¬ p) : check p = none := if_neg h

theorem check_eq_some {p : Prop} [Decidable p] {u : Unit} : check p = some u ↔ p := by
  unfold check
  split <;> simp_all

/-- The rules that run a `do` block, for `simp`. -/
theorem run_do : (∀ {α β : Type u} (x : Option α) (f : α → Option β), (x >>= f) = x.bind f) ∧
    (∀ {α β : Type u} (a : α) (f : α → Option β), (some a).bind f = f a) ∧
    ∀ {α : Type u} (a : α), (pure a : Option α) = some a :=
  ⟨fun _ _ => rfl, fun _ _ => rfl, fun _ => rfl⟩

/-- The first step of a `do` block that succeeds. -/
theorem exists_of_bind {α : Type u} {β : Type v} {x : Option α} {f : α → Option β} {b : β}
    (h : x.bind f = some b) : ∃ a, x = some a ∧ f a = some b :=
  bind_eq_some_iff.mp h

/-- The same for a computation that may fail in several ways. -/
theorem bind_eq_ok {ε α β : Type} {x : Except ε α} {f : α → Except ε β} {r : β} :
    x >>= f = .ok r ↔ ∃ a, x = .ok a ∧ f a = .ok r := by
  cases x with
  | error e | ok a => simp [bind, Except.bind]

/-- The rules that say what the steps of a `do` block that succeeds are, for `simp`. -/
theorem do_eq_some : (∀ {α β : Type u} (x : Option α) (f : α → Option β), (x >>= f) = x.bind f) ∧
    (∀ {α β : Type u} (a : α) (f : α → Option β), (some a).bind f = f a) ∧
    (∀ {α : Type u} (a : α), (pure a : Option α) = some a) ∧
    (∀ {α β : Type u} (x : Option α) (f : α → Option β) (b : β),
      x.bind f = some b ↔ ∃ a, x = some a ∧ f a = some b) ∧
    ∀ {α : Type u} (a b : α), (some a = some b) = (a = b) :=
  ⟨fun _ _ => rfl, fun _ _ => rfl, fun _ => rfl, fun _ _ _ => bind_eq_some_iff,
    fun _ _ => some.injEq _ _⟩

section Hom

variable {α α' β β' : Type u} {e : α → α'} {f : β → β'} {x : Option α} {g : α → Option β}

/-- The steps of a `do` block commute with functions between the states. -/
theorem bind_hom {x' : Option α'} {g' : α' → Option β'} (hx : x' = x.map e)
    (hg : ∀ a, g' (e a) = (g a).map f) : x'.bind g' = (x.bind g).map f := by
  rw [hx, bind_map, map_bind]
  exact congrArg x.bind (funext hg)

theorem bind_same {g' : α → Option β'} (hg : ∀ a, g' a = (g a).map f) :
    x.bind g' = (x.bind g).map f :=
  bind_hom map_id'.symm hg

theorem ite_hom {p : Prop} [Decidable p] {y y' : Option β} {z z' : Option β'} (hy : z = y.map f)
    (hy' : z' = y'.map f) : (if p then z else z') = (if p then y else y').map f := by
  rw [hy, hy', apply_ite (Option.map f)]

end Hom

section Loops

variable {α : Type u} {σ : Type v} {f : σ → α → Option σ}

/-- **Loop rule.** `I pre s` holds before the loop for the empty prefix, and each
round takes it from the elements visited so far to one more. -/
theorem foldlM_total {I : List α → σ → Prop} (l : List α) {s : σ} (hinit : I [] s)
    (hround : ∀ pre a post s, l = pre ++ a :: post → I pre s →
      ∃ s', f s a = some s' ∧ I (pre ++ [a]) s') :
    ∃ s', l.foldlM f s = some s' ∧ I l s' := by
  -- the rest of the list, with the part already visited as a parameter
  have hrest : ∀ (post pre : List α) (s : σ), l = pre ++ post → I pre s →
      ∃ s', post.foldlM f s = some s' ∧ I l s' := by
    intro post
    induction post with
    | nil =>
      intro pre s hl hinv
      rw [append_nil] at hl
      exact ⟨s, rfl, hl ▸ hinv⟩
    | cons a post ih =>
      intro pre s hl hinv
      obtain ⟨s₁, hstep, hinv₁⟩ := hround pre a post s hl hinv
      obtain ⟨s', hrun, hinv'⟩ := ih (pre ++ [a]) s₁ (by rw [hl]; simp) hinv₁
      exact ⟨s', by rw [foldlM_cons, hstep]; exact hrun, hinv'⟩
  exact hrest l [] s rfl hinit

/-- **Partial loop rule.** What every successful round keeps, a successful loop keeps. -/
theorem foldlM_keeps {I : σ → Prop} : ∀ (l : List α) {s s' : σ}, I s →
    (∀ a ∈ l, ∀ s s', I s → f s a = some s' → I s') → l.foldlM f s = some s' → I s' := by
  intro l
  induction l with
  | nil =>
    intro s s' hinv _ hrun
    cases hrun
    exact hinv
  | cons a l ih =>
    intro s s' hinv hround hrun
    obtain ⟨s₁, hstep, hrest⟩ := bind_eq_some_iff.mp hrun
    exact ih (hround a (mem_cons_self ..) s s₁ hinv hstep)
      (fun b hb => hround b (mem_cons_of_mem _ hb)) hrest

/-- Each step of a run meets a condition on the state that it starts from. -/
def AllSteps (f : σ → α → Option σ) (P : σ → α → Prop) (s : σ) : List α → Prop
  | [] => True
  | a :: l => P s a ∧ ∀ s', f s a = some s' → AllSteps f P s' l

variable {P : σ → α → Prop}

/-- **Run rule.** What every successful step keeps that meets the condition, a run keeps whose
steps all meet it. -/
theorem AllSteps.keeps {J : σ → Prop} {l : List α}
    (hstep : ∀ s a s', J s → P s a → f s a = some s' → J s') :
    ∀ {s s' : σ}, AllSteps f P s l → J s → l.foldlM f s = some s' → J s' := by
  induction l with
  | nil =>
    intro s s' _ hJ hrun
    cases hrun
    exact hJ
  | cons a l ih =>
    intro s s' hall hJ hrun
    obtain ⟨s₁, hs₁, hrest⟩ := bind_eq_some_iff.mp hrun
    exact ih (hall.2 s₁ hs₁) (hstep s a s₁ hJ hall.1 hs₁) hrest

/-- A weaker condition, which may use what the run keeps. -/
theorem AllSteps.imp {J : σ → Prop} {Q : σ → α → Prop} {l : List α}
    (hstep : ∀ s a s', J s → P s a → f s a = some s' → J s') (h : ∀ s a, J s → P s a → Q s a) :
    ∀ {s : σ}, AllSteps f P s l → J s → AllSteps f Q s l := by
  induction l with
  | nil => exact fun _ _ => trivial
  | cons a l ih =>
    intro s hall hJ
    exact ⟨h s a hJ hall.1, fun s' hs' => ih (hall.2 s' hs') (hstep s a s' hJ hall.1 hs')⟩

theorem AllSteps.mono {Q : σ → α → Prop} {l : List α} {s : σ} (h : ∀ s a, P s a → Q s a)
    (hall : AllSteps f P s l) : AllSteps f Q s l :=
  hall.imp (J := fun _ => True) (fun _ _ _ _ _ _ => trivial) (fun s a _ => h s a) trivial

/-- What every successful step meets, the steps of a successful run meet. -/
theorem allSteps_of_foldlM {l : List α} (h : ∀ s a s', f s a = some s' → P s a) :
    ∀ {s s' : σ}, l.foldlM f s = some s' → AllSteps f P s l := by
  induction l with
  | nil => exact fun _ => trivial
  | cons a l ih =>
    intro s s' hrun
    obtain ⟨s₁, hs₁, hrest⟩ := bind_eq_some_iff.mp hrun
    refine ⟨h s a s₁ hs₁, fun s₂ hs₂ => ?_⟩
    obtain rfl := mem_unique hs₁ hs₂
    exact ih hrest

theorem AllSteps.of_append {l l' : List α} :
    ∀ {s : σ}, AllSteps f P s (l ++ l') → AllSteps f P s l := by
  induction l with
  | nil => exact fun _ => trivial
  | cons a l ih => exact fun h => ⟨h.1, fun s' hs' => ih (h.2 s' hs')⟩

/-- The rest of a run. -/
theorem AllSteps.of_foldlM {l l' : List α} :
    ∀ {s s' : σ}, AllSteps f P s (l ++ l') → l.foldlM f s = some s' → AllSteps f P s' l' := by
  induction l with
  | nil =>
    intro s s' h hrun
    cases hrun
    exact h
  | cons a l ih =>
    intro s s' h hrun
    obtain ⟨s₁, hs₁, hrest⟩ := bind_eq_some_iff.mp hrun
    exact ih (h.2 s₁ hs₁) hrest

/-- A run fails only where a step fails. -/
theorem exists_of_foldlM_eq_none {l : List α} : ∀ {s : σ}, l.foldlM f s = none →
    ∃ pre a s', pre ++ [a] <+: l ∧ pre.foldlM f s = some s' ∧ f s' a = none := by
  induction l with
  | nil => exact fun h => nomatch h
  | cons a l ih =>
    intro s h
    cases hstep : f s a with
    | none => exact ⟨[], a, s, ⟨l, rfl⟩, rfl, hstep⟩
    | some s₁ =>
      rw [foldlM_cons, hstep] at h
      obtain ⟨pre, b, s', hpre, hrun, hnone⟩ := ih h
      refine ⟨a :: pre, b, s', cons_prefix_cons.mpr ⟨rfl, hpre⟩, ?_, hnone⟩
      rw [foldlM_cons, hstep]
      exact hrun

end Loops

section Maps

variable {α : Type u} {β : Type v} {f g : α → Option β}

theorem mapM_congr {l : List α} (h : ∀ a ∈ l, f a = g a) : l.mapM f = l.mapM g := by
  induction l with
  | nil => rfl
  | cons a l ih =>
    rw [mapM_cons, mapM_cons, h a (mem_cons_self ..), ih fun b hb => h b (mem_cons_of_mem _ hb)]

/-- The elements of a list that a loop over another one has filled. -/
theorem getElem?_of_mapM {l : List α} {r : List β} (h : l.mapM f = some r) (i : Nat) :
    r[i]? = l[i]?.bind f := by
  induction l generalizing r i with
  | nil =>
    cases h
    rfl
  | cons a l ih =>
    rw [mapM_cons] at h
    obtain ⟨b, hb, hrest⟩ := bind_eq_some_iff.mp h
    obtain ⟨bs, hbs, hr⟩ := bind_eq_some_iff.mp hrest
    cases hr
    cases i with
    | zero => rw [getElem?_cons_zero, getElem?_cons_zero, bind_some, hb]
    | succ i => rw [getElem?_cons_succ, getElem?_cons_succ, ih hbs]

end Maps

end Kerninst
