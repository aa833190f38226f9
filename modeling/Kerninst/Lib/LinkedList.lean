import Mathlib.Logic.Function.Basic
import Mathlib.Logic.Relation

/-!
# Linked lists in a pointer-like store

A store of links is a function `next : α → Option α` (`none` is the null
pointer). `Links next start l` says that the list reached from `start` by
following `next` is exactly `l`. It only depends on the links of its own cells
(`Links.congr`), which is the frame rule for in-place updates.

`chase` is the pointer-chasing loop `while (p != NULL) { …; p = p->next; }`
with a bound on its rounds; on a shorter list it is a plain search (`chase_eq`).
`walk` is the loop that visits the whole list and may write to the cells on its
way (`walk_total`).

Two lists become one when the last cell of the first is linked to the first cell of
the second (`Links.append`). A store is `Grounded` if following its links always comes to
an end; `Grounded.update_iff` says when it stays so after a cell is linked to another one.
-/

namespace Kerninst

open List Function

universe u

variable {α : Type u}

/-- Following `next` from `start` visits exactly the cells of `l`, in order,
and then stops. -/
def Links (next : α → Option α) : Option α → List α → Prop
  | start, [] => start = none
  | start, a :: l => start = some a ∧ Links next (next a) l

namespace Links

variable {next next' : α → Option α} {start : Option α} {l l' : List α} {a : α}

@[simp] theorem nil_iff : Links next start [] ↔ start = none := Iff.rfl

@[simp] theorem cons_iff :
    Links next start (a :: l) ↔ start = some a ∧ Links next (next a) l := Iff.rfl

/-- The start cell determines the list. -/
theorem unique : ∀ {l l' : List α} {start : Option α},
    Links next start l → Links next start l' → l = l' := by
  intro l
  induction l with
  | nil =>
    intro l' start h h'
    cases l' with
    | nil => rfl
    | cons b m =>
      rw [nil_iff.mp h] at h'
      exact absurd h'.1 (by simp)
  | cons a l ih =>
    intro l' start h h'
    obtain ⟨hs, hl⟩ := h
    cases l' with
    | nil =>
      rw [nil_iff.mp h'] at hs
      exact absurd hs (by simp)
    | cons b m =>
      obtain ⟨hs', hm⟩ := h'
      obtain rfl : a = b := Option.mem_unique hs hs'
      rw [ih hl hm]

/-- The frame rule: only the links of the visited cells matter. -/
theorem congr : ∀ {l : List α} {start : Option α},
    (∀ b ∈ l, next' b = next b) → Links next start l → Links next' start l := by
  intro l
  induction l with
  | nil => intro start _ h; exact h
  | cons a l ih =>
    intro start hag h
    refine ⟨h.1, ?_⟩
    rw [hag a (mem_cons_self ..)]
    exact ih (fun b hb => hag b (mem_cons_of_mem _ hb)) h.2

/-- Every suffix of a linked list is linked from its own first cell. -/
theorem of_append : ∀ {l₁ l₂ : List α} {start : Option α},
    Links next start (l₁ ++ l₂) → ∃ mid, Links next mid l₂ ∧ (l₁ = [] → mid = start) := by
  intro l₁
  induction l₁ with
  | nil => intro l₂ start h; exact ⟨start, h, fun _ => rfl⟩
  | cons a l₁ ih =>
    intro l₂ start h
    obtain ⟨mid, hmid, -⟩ := ih h.2
    exact ⟨mid, hmid, fun hnil => absurd hnil (by simp)⟩

/-- A linked list never visits a cell twice: the two visits would have the same
remainder, and one remainder is longer. -/
theorem nodup : ∀ {l : List α} {start : Option α}, Links next start l → l.Nodup := by
  intro l
  induction l with
  | nil => intro _ _; exact nodup_nil
  | cons a l ih =>
    intro start h
    refine nodup_cons.mpr ⟨?_, ih h.2⟩
    intro hmem
    obtain ⟨l₁, l₂, hsplit⟩ := append_of_mem hmem
    have htail : Links next (next a) (l₁ ++ a :: l₂) := hsplit ▸ h.2
    obtain ⟨mid, hmid, -⟩ := of_append htail
    have heq : l = l₂ := unique h.2 hmid.2
    have hlen := congrArg length hsplit
    rw [heq] at hlen
    simp at hlen
    omega

/-- The first cell does not lead to itself. -/
theorem next_head_ne_self (h : Links next (some a) l) : next a ≠ some a := by
  intro hself
  cases l with
  | nil => exact absurd h (by simp)
  | cons b l =>
    obtain ⟨hab, hl⟩ := h
    obtain rfl : a = b := Option.some.inj hab
    rw [hself] at hl
    have hlinks : Links next (some a) (a :: l) := ⟨rfl, hself ▸ hl⟩
    have hlen := congrArg length (unique hlinks hl)
    simp at hlen

theorem start_eq_head? (h : Links next start l) : start = l.head? := by
  cases l with
  | nil => exact h
  | cons a l => exact h.1

/-- The list is closed under its links. -/
theorem mem_of_next : ∀ {l : List α} {start : Option α}, Links next start l →
    ∀ {a b : α}, a ∈ l → next a = some b → b ∈ l := by
  intro l
  induction l with
  | nil => intro _ _ _ _ ha; exact absurd ha (by simp)
  | cons c l ih =>
    intro start h a b ha hab
    rcases mem_cons.mp ha with rfl | ha
    · have hhead : some b = l.head? := hab.symm.trans (start_eq_head? h.2)
      exact mem_cons_of_mem _ (mem_of_mem_head? hhead.symm)
    · exact mem_cons_of_mem _ (ih h.2 ha hab)

/-- The cell without a link is the last one. -/
theorem eq_concat_of_next_none : ∀ {l : List α} {start : Option α}, Links next start l →
    ∀ {a : α}, a ∈ l → next a = none → ∃ l', l = l' ++ [a] := by
  intro l
  induction l with
  | nil => intro _ _ _ ha; exact absurd ha (by simp)
  | cons c l ih =>
    intro start h a ha hnone
    rcases mem_cons.mp ha with rfl | ha
    · have hhead : none = l.head? := hnone.symm.trans (start_eq_head? h.2)
      have hl : l = [] := head?_eq_none_iff.mp hhead.symm
      exact ⟨[], by rw [hl]; rfl⟩
    · obtain ⟨l', hl'⟩ := ih h.2 ha hnone
      exact ⟨c :: l', by rw [hl']; rfl⟩

/-- Every cell leads to the last one. -/
theorem path_to_last : ∀ {l : List α} {start : Option α} {a : α},
    Links next start (l ++ [a]) → ∀ {b : α}, b ∈ l ++ [a] →
      Relation.ReflTransGen (fun x y => next x = some y) b a := by
  intro l
  induction l with
  | nil =>
    intro start a _ b hb
    rw [mem_singleton.mp hb]
  | cons c l ih =>
    intro start a h b hb
    rcases mem_cons.mp hb with rfl | hb
    · have hnext : next b = (l ++ [a]).head? := start_eq_head? h.2
      obtain ⟨d, hd⟩ : ∃ d, (l ++ [a]).head? = some d := by
        cases l with
        | nil => exact ⟨a, rfl⟩
        | cons d l => exact ⟨d, rfl⟩
      rw [hd] at hnext
      exact .head hnext (ih h.2 (mem_of_mem_head? hd))
    · exact ih h.2 hb

/-- **Linking two lists.** -/
theorem append [DecidableEq α] {b : α} : ∀ {l : List α} {start : Option α},
    Links next start (l ++ [a]) → Links next (some b) l' → a ∉ l' →
      Links (update next a (some b)) start (l ++ [a] ++ l') := by
  intro l
  induction l with
  | nil =>
    intro start h h' ha
    refine ⟨h.1, ?_⟩
    rw [update_self]
    refine congr (fun c hc => update_of_ne ?_ ..) h'
    rintro rfl
    exact ha hc
  | cons c l ih =>
    intro start h h' ha
    have hne : c ≠ a := by
      rintro rfl
      exact (nodup_cons.mp (nodup h)).1 (by simp)
    refine ⟨h.1, ?_⟩
    rw [update_of_ne hne]
    exact ih h.2 h' ha

end Links

/-! ## Redirecting a link -/

/-- From every cell, following `next` comes to an end. -/
def Grounded (next : α → Option α) : Prop := ∀ a, ∃ l, Links next (some a) l

section Redirect

variable [DecidableEq α] {next : α → Option α} {x y : α} {start : Option α} {l l' : List α}

/-- A list still ends if the one that a redirected cell now leads to does. -/
theorem Links.exists_update {y : Option α} (hy : ∃ m, Links (update next x y) y m)
    (h : Links next start l) : ∃ l', Links (update next x y) start l' := by
  induction l generalizing start with
  | nil => exact ⟨[], h⟩
  | cons a l ih =>
    obtain ⟨rfl, hl⟩ := h
    rcases eq_or_ne a x with rfl | hne
    · obtain ⟨m, hm⟩ := hy
      exact ⟨a :: m, rfl, by rwa [update_self]⟩
    · obtain ⟨l', hl'⟩ := ih hl
      exact ⟨a :: l', rfl, by rwa [update_of_ne hne]⟩

/-- A list that comes to a cell still does after the cell has been redirected. -/
theorem Links.mem_of_mem_update {y : Option α} (h : Links next start l) (hx : x ∈ l)
    (h' : Links (update next x y) start l') : x ∈ l' := by
  induction l generalizing start l' with
  | nil => exact absurd hx not_mem_nil
  | cons a l ih =>
    obtain ⟨rfl, hl⟩ := h
    cases l' with
    | nil => exact absurd h' (by simp)
    | cons b l' =>
      obtain ⟨hab, hl'⟩ := h'
      obtain rfl : a = b := Option.some.inj hab
      rcases eq_or_ne a x with rfl | hne
      · exact mem_cons_self
      · rw [update_of_ne hne] at hl'
        have hxl : x ∈ l := (mem_cons.mp hx).resolve_left hne.symm
        exact mem_cons_of_mem _ (ih hl hxl hl')

/-- **Redirecting a cell** keeps all lists finite exactly if the list from its new target does not
come back to it. -/
theorem Grounded.update_iff (h : Grounded next) :
    Grounded (update next x (some y)) ↔ ∀ l, Links next (some y) l → x ∉ l := by
  constructor
  · intro hnew l hl hx
    obtain ⟨l', hl'⟩ := hnew x
    cases l' with
    | nil => exact absurd hl' (by simp)
    | cons b l' =>
      obtain ⟨hxb, hrest⟩ := hl'
      obtain rfl : x = b := Option.some.inj hxb
      have hlinks : Links (update next x (some y)) (some x) (x :: l') := ⟨rfl, hrest⟩
      rw [update_self] at hrest
      exact (nodup_cons.mp hlinks.nodup).1 (hl.mem_of_mem_update hx hrest)
  · intro hsafe a
    obtain ⟨m, hm⟩ := h y
    have hframe : ∀ b ∈ m, update next x (some y) b = next b := by
      intro b hb
      refine update_of_ne ?_ _ _
      rintro rfl
      exact hsafe m hm hb
    obtain ⟨l, hl⟩ := h a
    exact hl.exists_update ⟨m, hm.congr hframe⟩

/-- Cutting a list off keeps all lists finite. -/
theorem Grounded.update_none (h : Grounded next) : Grounded (update next x none) := by
  intro a
  obtain ⟨l, hl⟩ := h a
  exact hl.exists_update ⟨[], rfl⟩

end Redirect
/-! ## Chasing pointers -/

/-- The loop `while (p != NULL) { if (found p) return p; p = p->next; }`, run
for at most `fuel` tests of `p`. The outer `none` means that the bound was
reached, the inner one that the end of the list was. -/
def chase (next : α → Option α) (found : α → Bool) : Nat → Option α → Option (Option α)
  | 0, _ => none
  | _ + 1, none => some none
  | fuel + 1, some p => if found p then some (some p) else chase next found fuel (next p)

/-- On a linked list shorter than the bound, chasing pointers is searching the
list. -/
theorem chase_eq {next : α → Option α} {found : α → Bool} :
    ∀ {l : List α} {start : Option α} {fuel : Nat}, Links next start l →
      l.length < fuel → chase next found fuel start = some (l.find? found) := by
  intro l
  induction l with
  | nil =>
    intro start fuel h hf
    obtain ⟨n, rfl⟩ : ∃ n, fuel = n + 1 := ⟨fuel - 1, by omega⟩
    rw [Links.nil_iff.mp h]
    rfl
  | cons a l ih =>
    intro start fuel h hf
    obtain ⟨n, rfl⟩ : ∃ n, fuel = n + 1 := ⟨fuel - 1, by omega⟩
    rw [h.1, find?_cons]
    simp only [length_cons] at hf
    cases hfa : found a with
    | true => simp [chase, hfa]
    | false =>
      simp only [chase, hfa]
      exact ih h.2 (by omega)

/-- The loop `while (p != NULL) { visit(p); p = p->next; }`, run for at most `fuel` tests
of `p`. A visit may change the store and may fail; it returns the link of its cell. -/
def walk {σ : Type u} (visit : σ → α → Option (σ × Option α)) : Nat → σ → Option α → Option σ
  | 0, _, _ => none
  | _ + 1, s, none => some s
  | fuel + 1, s, some p => (visit s p).bind fun r => walk visit fuel r.1 r.2

/-- **Walk rule.** On a linked list shorter than the bound the loop visits each cell once,
in order. -/
theorem walk_total {σ : Type u} {visit : σ → α → Option (σ × Option α)} {next : α → Option α}
    {I : List α → σ → Prop} {l : List α} {start : Option α} {fuel : Nat} {s : σ}
    (hl : Links next start l) (hfuel : l.length < fuel) (hinit : I [] s)
    (hvisit : ∀ pre a post s, l = pre ++ a :: post → I pre s →
      ∃ s', visit s a = some (s', next a) ∧ I (pre ++ [a]) s') :
    ∃ s', walk visit fuel s start = some s' ∧ I l s' := by
  -- the rest of the list, with the part already visited as a parameter
  have hrest : ∀ (post pre : List α) (start : Option α) (fuel : Nat) (s : σ),
      Links next start post → post.length < fuel → l = pre ++ post → I pre s →
      ∃ s', walk visit fuel s start = some s' ∧ I l s' := by
    intro post
    induction post with
    | nil =>
      intro pre start fuel s h hf hpre hinv
      obtain ⟨n, rfl⟩ : ∃ n, fuel = n + 1 := ⟨fuel - 1, by omega⟩
      rw [Links.nil_iff.mp h]
      rw [append_nil] at hpre
      exact ⟨s, rfl, hpre ▸ hinv⟩
    | cons a post ih =>
      intro pre start fuel s h hf hpre hinv
      simp only [length_cons] at hf
      obtain ⟨n, rfl⟩ : ∃ n, fuel = n + 1 := ⟨fuel - 1, by omega⟩
      obtain ⟨s₁, hstep, hinv₁⟩ := hvisit pre a post s hpre hinv
      obtain ⟨s', hrun, hinv'⟩ := ih (pre ++ [a]) (next a) n s₁ h.2 (by omega)
        (by rw [hpre]; simp) hinv₁
      refine ⟨s', ?_, hinv'⟩
      rw [h.1, walk, hstep]
      exact hrun
  exact hrest l [] start fuel s hl hfuel rfl hinit

end Kerninst
