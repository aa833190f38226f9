import Mathlib.Logic.Function.Basic

/-!
# Writes that can be undone

A memory is a function. `Nested` is a memory together with, for each location, the values that
are still to be restored there: a push saves the present value, and a pop restores the newest of
those saved. Operations on different locations may be interleaved in any way. Two facts follow:

* the value of a location below all that is saved is never lost (`original_run`);
* a pop restores what was there before the push that it matches (`memory_of_balanced`).

`writeAll` performs a list of writes. If it writes to each location that was changed the value
that it had, in whatever order, all is as it was (`writeAll_eq`; `foldl_overlay_eq` for writes to
several locations at once).
-/

namespace Kerninst

open List Function Option

variable {α β : Type}

/-! ## Writes to several locations at once -/

/-- Write where the second is defined. -/
def overlay (memory : α → β) (write : α → Option β) : α → β :=
  fun a => (write a).getD (memory a)

theorem overlay_of_some {memory : α → β} {write : α → Option β} {a : α} {b : β}
    (h : write a = some b) : overlay memory write a = b := by
  rw [overlay, h, getD_some]

theorem overlay_of_none {memory : α → β} {write : α → Option β} {a : α} (h : write a = none) :
    overlay memory write a = memory a := by
  rw [overlay, h, getD_none]

/-- **Restoring a memory**, some locations at a time. -/
theorem foldl_overlay_eq {orig : α → β} : ∀ {writes : List (α → Option β)} {memory : α → β},
    (∀ write ∈ writes, ∀ a b, write a = some b → b = orig a) →
    (∀ a, (∀ write ∈ writes, write a = none) → memory a = orig a) →
    writes.foldl overlay memory = orig := by
  intro writes
  induction writes with
  | nil =>
    intro memory _ hrest
    exact funext fun a => hrest a fun _ h => nomatch h
  | cons write writes ih =>
    intro memory hright hrest
    refine ih (fun write' h => hright write' (mem_cons_of_mem _ h)) fun a ha => ?_
    cases hwrite : write a with
    | none =>
      rw [overlay_of_none hwrite]
      exact hrest a (forall_mem_cons.mpr ⟨hwrite, ha⟩)
    | some b =>
      rw [overlay_of_some hwrite]
      exact hright write mem_cons_self a b hwrite

variable [DecidableEq α]

/-! ## Lists of writes -/

/-- Perform writes in order. -/
def writeAll (memory : α → β) : List (α × β) → α → β
  | [] => memory
  | write :: writes => writeAll (Function.update memory write.1 write.2) writes

theorem writeAll_append (memory : α → β) (ws vs : List (α × β)) :
    writeAll memory (ws ++ vs) = writeAll (writeAll memory ws) vs := by
  induction ws generalizing memory with
  | nil => rfl
  | cons w ws ih => exact ih _

theorem writeAll_of_notMem {a : α} : ∀ {ws : List (α × β)} {memory : α → β},
    a ∉ ws.map Prod.fst → writeAll memory ws a = memory a := by
  intro ws
  induction ws with
  | nil => exact fun _ => rfl
  | cons w ws ih =>
    intro memory h
    obtain ⟨hne, h⟩ := ne_and_not_mem_of_not_mem_cons h
    rw [writeAll, ih h, update_of_ne hne]

/-- All writes to a location agree. -/
theorem writeAll_of_forall {a : α} {b : β} : ∀ {ws : List (α × β)} {memory : α → β},
    (∀ w ∈ ws, w.1 = a → w.2 = b) → a ∈ ws.map Prod.fst → writeAll memory ws a = b := by
  intro ws
  induction ws with
  | nil => exact fun _ h => nomatch h
  | cons w ws ih =>
    intro memory hsame hmem
    have hrest : ∀ w' ∈ ws, w'.1 = a → w'.2 = b := fun w' hw' =>
      hsame w' (mem_cons_of_mem _ hw')
    rw [writeAll]
    by_cases ha : a ∈ ws.map Prod.fst
    · exact ih hrest ha
    · obtain rfl : a = w.1 := (mem_cons.mp hmem).resolve_right ha
      rw [writeAll_of_notMem ha, update_self]
      exact hsame w mem_cons_self rfl

/-- **Restoring a memory**: what is written is right, and what is not written is right already. -/
theorem writeAll_eq {orig memory : α → β} {ws : List (α × β)} (hright : ∀ w ∈ ws, w.2 = orig w.1)
    (hrest : ∀ a, a ∉ ws.map Prod.fst → memory a = orig a) : writeAll memory ws = orig := by
  funext a
  by_cases ha : a ∈ ws.map Prod.fst
  · exact writeAll_of_forall (fun w hw heq => heq ▸ hright w hw) ha
  · rw [writeAll_of_notMem ha, hrest a ha]

/-! ## Nested writes -/

/-- A memory, and the values saved for each location, newest first. -/
structure Nested (α β : Type) where
  memory : α → β
  saved : α → List β

namespace Nested

inductive Op (α β : Type)
  | push (a : α) (b : β)
  | change (a : α) (b : β)
  | pop (a : α)

/-- The location of an operation. -/
def Op.loc : Op α β → α
  | push a _ => a
  | change a _ => a
  | pop a => a

/-- Nothing is saved. -/
def start (memory : α → β) : Nested α β := ⟨memory, fun _ => []⟩

/-- A push saves the present value; a change keeps what is saved; a pop restores. -/
def step (n : Nested α β) : Op α β → Option (Nested α β)
  | .push a b =>
    some ⟨Function.update n.memory a b, Function.update n.saved a (n.memory a :: n.saved a)⟩
  | .change a b =>
    match n.saved a with
    | [] => none
    | _ :: _ => some ⟨Function.update n.memory a b, n.saved⟩
  | .pop a =>
    match n.saved a with
    | [] => none
    | b :: rest => some ⟨Function.update n.memory a b, Function.update n.saved a rest⟩

def run (n : Nested α β) (ops : List (Op α β)) : Option (Nested α β) := ops.foldlM step n

/-- The value below all that is saved. -/
def original (n : Nested α β) (a : α) : β := (n.saved a).getLast?.getD (n.memory a)

variable {n n' : Nested α β} {op : Op α β} {ops : List (Op α β)} {a : α} {b : β}

/-- **What a step can do.** -/
theorem step_eq_some (h : n.step op = some n') :
    (∃ a b, op = .push a b ∧ n'.memory = update n.memory a b ∧
        n'.saved = update n.saved a (n.memory a :: n.saved a)) ∨
      (∃ a b, op = .change a b ∧ n.saved a ≠ [] ∧ n'.memory = update n.memory a b ∧
        n'.saved = n.saved) ∨
      ∃ a b rest, op = .pop a ∧ n.saved a = b :: rest ∧
        n'.memory = update n.memory a b ∧ n'.saved = update n.saved a rest := by
  cases op with
  | push a b =>
    obtain rfl := some.inj h
    exact .inl ⟨a, b, rfl, rfl, rfl⟩
  | change a b =>
    cases hsaved : n.saved a with
    | nil =>
      simp only [step, hsaved] at h
      cases h
    | cons c rest =>
      simp only [step, hsaved] at h
      obtain rfl := some.inj h
      exact .inr (.inl ⟨a, b, rfl, hsaved ▸ cons_ne_nil c rest, rfl, rfl⟩)
  | pop a =>
    cases hsaved : n.saved a with
    | nil =>
      simp only [step, hsaved] at h
      cases h
    | cons b rest =>
      simp only [step, hsaved] at h
      obtain rfl := some.inj h
      exact .inr (.inr ⟨a, b, rest, rfl, hsaved, rfl, rfl⟩)

/-- An operation only affects its own location. -/
theorem step_of_ne (h : n.step op = some n') (ha : a ≠ op.loc) :
    n'.memory a = n.memory a ∧ n'.saved a = n.saved a := by
  obtain ⟨c, b, rfl, hm, hs⟩ | ⟨c, b, rfl, -, hm, hs⟩ | ⟨c, b, rest, rfl, -, hm, hs⟩ :=
    step_eq_some h
  · have hne : a ≠ c := ha
    rw [hm, hs, update_of_ne hne, update_of_ne hne]
    exact ⟨rfl, rfl⟩
  · have hne : a ≠ c := ha
    rw [hm, hs, update_of_ne hne]
    exact ⟨rfl, rfl⟩
  · have hne : a ≠ c := ha
    rw [hm, hs, update_of_ne hne, update_of_ne hne]
    exact ⟨rfl, rfl⟩

theorem original_step (h : n.step op = some n') : n'.original = n.original := by
  funext a
  by_cases ha : a = op.loc
  · obtain ⟨c, b, rfl, hm, hs⟩ | ⟨c, b, rfl, hsaved, hm, hs⟩ | ⟨c, b, rest, rfl, hsaved, hm, hs⟩ :=
      step_eq_some h
    · obtain rfl : a = c := ha
      rw [original, original, hs, update_self, getLast?_cons, getD_some]
    · obtain rfl : a = c := ha
      rw [original, original, hs, getLast?_eq_some_getLast hsaved, getD_some, getD_some]
    · obtain rfl : a = c := ha
      rw [original, original, hs, hm, update_self, update_self, hsaved, getLast?_cons, getD_some]
  · obtain ⟨hm, hs⟩ := step_of_ne h ha
    rw [original, original, hm, hs]

theorem exists_of_run_cons (h : n.run (op :: ops) = some n') :
    ∃ m, n.step op = some m ∧ m.run ops = some n' := by
  exact bind_eq_some_iff.mp h

theorem exists_of_run_append {ops' : List (Op α β)} (h : n.run (ops ++ ops') = some n') :
    ∃ m, n.run ops = some m ∧ m.run ops' = some n' := by
  rw [run, foldlM_append] at h
  exact bind_eq_some_iff.mp h

/-- **The original values are never lost.** -/
theorem original_run : ∀ {n : Nested α β}, n.run ops = some n' → n'.original = n.original := by
  induction ops with
  | nil =>
    intro n h
    rw [some.inj h]
  | cons op ops ih =>
    intro n h
    obtain ⟨n₁, hstep, hrun⟩ := exists_of_run_cons h
    rw [ih hrun, original_step hstep]

omit [DecidableEq α] in
theorem memory_eq_original (h : n.saved a = []) : n.memory a = n.original a := by
  rw [original, h]
  rfl

/-! ## Matching -/

/-- Each push of a location is matched by a later pop of it, and each pop by an earlier push. -/
inductive Balanced (c : α) : List (Op α β) → Prop
  | nil : Balanced c []
  | other {op : Op α β} {ops : List (Op α β)} : c ≠ op.loc → Balanced c ops →
      Balanced c (op :: ops)
  | change {b : β} {ops : List (Op α β)} : Balanced c ops → Balanced c (.change c b :: ops)
  | nest {b : β} {inner ops : List (Op α β)} : Balanced c inner → Balanced c ops →
      Balanced c (.push c b :: (inner ++ .pop c :: ops))

/-- A pop right after a balanced sequence restores the newest value saved before it. -/
theorem step_pop {rest : List β} (hsaved : n.saved a = b :: rest) (h : n.step (.pop a) = some n') :
    n'.memory a = b ∧ n'.saved a = rest := by
  obtain ⟨_, _, hop, -⟩ | ⟨_, _, hop, -⟩ | ⟨c, b', rest', hop, hsaved', hm, hs⟩ := step_eq_some h
  · cases hop
  · cases hop
  · cases hop
    obtain ⟨rfl, rfl⟩ := cons.inj (hsaved.symm.trans hsaved')
    rw [hm, hs, update_self, update_self]
    exact ⟨rfl, rfl⟩

theorem Balanced.saved_run (hbal : Balanced a ops) :
    ∀ {n n' : Nested α β}, n.run ops = some n' → n'.saved a = n.saved a := by
  induction hbal with
  | nil =>
    intro n n' h
    rw [some.inj h]
  | other hne _ ih =>
    intro n n' h
    obtain ⟨n₁, hstep, hrun⟩ := exists_of_run_cons h
    rw [ih hrun, (step_of_ne hstep hne).2]
  | change _ ih =>
    intro n n' h
    obtain ⟨n₁, hstep, hrun⟩ := exists_of_run_cons h
    obtain ⟨_, _, hop, -⟩ | ⟨_, _, hop, -, -, hs⟩ | ⟨_, _, _, hop, -⟩ := step_eq_some hstep
    · cases hop
    · rw [ih hrun, hs]
    · cases hop
  | nest _ _ ihInner ihRest =>
    intro n n' h
    obtain ⟨n₁, hpush, hrun⟩ := exists_of_run_cons h
    obtain rfl := some.inj hpush
    obtain ⟨n₂, hinner, hrun⟩ := exists_of_run_append hrun
    obtain ⟨n₃, hpop, hrest⟩ := exists_of_run_cons hrun
    have hsaved := (ihInner hinner).trans (update_self ..)
    rw [ihRest hrest, (step_pop hsaved hpop).2]

/-- **A pop restores** the value from before the push that it matches. -/
theorem memory_of_balanced {inner : List (Op α β)} (hbal : Balanced a inner)
    (h : n.run (.push a b :: (inner ++ [.pop a])) = some n') : n'.memory a = n.memory a := by
  obtain ⟨n₁, hpush, hrun⟩ := exists_of_run_cons h
  obtain rfl := some.inj hpush
  obtain ⟨n₂, hinner, hrun⟩ := exists_of_run_append hrun
  obtain ⟨n₃, hpop, hnil⟩ := exists_of_run_cons hrun
  obtain rfl := some.inj hnil
  have hsaved := (hbal.saved_run hinner).trans (update_self ..)
  exact (step_pop hsaved hpop).1

end Nested

end Kerninst
