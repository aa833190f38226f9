import Kerninst.Lib.Checked
import Kerninst.Dataflow.Window

/-!
# SPARC data-flow functions

`DataflowFn` is the class `sparc_bitwise_dataflow_fn_ll`: a stack of register
windows, the last of which is the current one. The lower windows are those that a
backwards analysis has gone through *restore* instructions above; going back
through the matching *save* pops the current window. A save without a window to
return to manufactures one, and is counted in `numPreSaveFramesManufactured`;
while that count is positive the stack holds the current window alone. That is the
invariant `DataflowFn.Ok`, and the reason why the source's two composition
routines agree (`compose_eq_composeOverwriteParam`).

The vector `preSaveFrames` is kept as its lower windows, from the bottom up, and
its last one, so that it is never empty; the counter wraps at 32 bits. The source's
assertions are the error `assertion`.
-/

namespace Kerninst

open List

/-- How an operation gives up. -/
inductive DataflowError
  | assertion
  | disagreeingNumberOfPreSaveFramesInMerge
deriving DecidableEq

/-- `sparc_bitwise_dataflow_fn_ll` -/
structure DataflowFn where
  /-- `preSaveFrames` without the last window -/
  below : List Window
  top : Window
  numPreSaveFramesManufactured : Nat
deriving DecidableEq

namespace DataflowFn

/-- The constructor from two booleans. -/
def ofBools (iThruBit iGenBit : Bool) : DataflowFn := ⟨[], Window.ofBools iThruBit iGenBit, 0⟩

def passAllRegs : DataflowFn := ofBools true false
def startAllRegs : DataflowFn := ofBools false true
def stopAllRegs : DataflowFn := ofBools false false

/-- `operator==`. Of the lower windows only the `%i` and `%l` registers count; the
two tests against `UINT_MAX` are for the dummy function. -/
def eq (f src : DataflowFn) : Bool :=
  if f.numPreSaveFramesManufactured = uintMax then
    src.numPreSaveFramesManufactured == uintMax
  else if src.numPreSaveFramesManufactured = uintMax then false
  else if f.numPreSaveFramesManufactured ≠ src.numPreSaveFramesManufactured then false
  else if f.below.length ≠ src.below.length then false
  else (List.zipWith Window.equalIsAndLs f.below src.below).all id && f.top == src.top

def passSet (f : DataflowFn) (regs : SparcRegSet) : DataflowFn :=
  { f with top := f.top.passSet regs }

def startSet (f : DataflowFn) (set : SparcRegSet) : DataflowFn :=
  { f with top := f.top.startSet set }

def stopSet (f : DataflowFn) (set : SparcRegSet) : DataflowFn :=
  { f with top := f.top.stopSet set }

/-- `processSaveInBackwardsDFProblem`: pop the current window, manufacturing one to
return to if there is none. -/
def processSave (f : DataflowFn) : Except DataflowError DataflowFn :=
  let f := if f.below = [] then
      { f with
        below := [Window.ofBools true false]
        numPreSaveFramesManufactured := (f.numPreSaveFramesManufactured + 1) % 2 ^ 32 }
    else f
  match f.below.getLast? with
  | none => .error .assertion
  | some newWorkingWindow =>
    let below := f.below.dropLast
    if 0 < f.numPreSaveFramesManufactured ∧ below ≠ [] then .error .assertion
    else .ok { f with below := below, top := newWorkingWindow.processRestore f.top }

/-- `processRestoreInBackwardsDFProblem`: push a new window, or leave a manufactured
one. -/
def processRestore (f : DataflowFn) : Except DataflowError DataflowFn :=
  if 0 < f.numPreSaveFramesManufactured then
    if f.below ≠ [] then .error .assertion
    else .ok
      { f with
        numPreSaveFramesManufactured := f.numPreSaveFramesManufactured - 1
        top := f.top.save }
  else .ok { f with below := f.below ++ [f.top], top := f.top.save }

/-- `w.compose_overwrite_param(top())` -/
def composeTop (f : DataflowFn) (w : Window) : DataflowFn :=
  { f with top := w.composeOverwriteParam f.top }

/-- A loop of `n` saves. -/
def processSaves : Nat → DataflowFn → Except DataflowError DataflowFn
  | 0, f => .ok f
  | n + 1, f => do processSaves n (← f.processSave)

/-- The loop over the lower windows of a function, composing each onto `g` and
pushing a window after it. -/
def composeBelow : List Window → DataflowFn → Except DataflowError DataflowFn
  | [], g => .ok g
  | w :: ws, g => do composeBelow ws (← (g.composeTop w).processRestore)

/-- `compose`: the function `f ∘ g`. -/
def compose (f g : DataflowFn) : Except DataflowError DataflowFn :=
  if 0 < f.numPreSaveFramesManufactured then do
    let result ← processSaves f.numPreSaveFramesManufactured g
    pure (result.composeTop f.top)
  else do
    let result ← composeBelow f.below g
    pure (result.composeTop f.top)

/-- `compose_overwrite_param`: the function `f ∘ g`, written onto `g`. -/
def composeOverwriteParam (f g : DataflowFn) : Except DataflowError DataflowFn := do
  let g ← processSaves f.numPreSaveFramesManufactured g
  let g ← composeBelow f.below g
  pure (g.composeTop f.top)

/-- `boost`: an all-pass window at the bottom of the stack. -/
def boost (f : DataflowFn) : Except DataflowError DataflowFn :=
  if f.numPreSaveFramesManufactured ≠ 0 then .error .assertion
  else .ok { f with below := (f.below.head?.getD f.top).passSet .fullset :: f.below }

/-- `while (f.preSaveFrames.size() < …) f.boost()`, with the number of rounds. -/
def boostBy : Nat → DataflowFn → Except DataflowError DataflowFn
  | 0, f => .ok f
  | n + 1, f => do boostBy n (← f.boost)

def mergeWith (f g : DataflowFn) (mergeWithBitOr : Bool) : Except DataflowError DataflowFn :=
  if 0 < f.numPreSaveFramesManufactured ∨ 0 < g.numPreSaveFramesManufactured then
    if f.numPreSaveFramesManufactured = g.numPreSaveFramesManufactured then
      .ok { f with top := f.top.mergeWith g.top mergeWithBitOr }
    else .error .disagreeingNumberOfPreSaveFramesInMerge
  else do
    let f ← boostBy (g.below.length - f.below.length) f
    let g ← boostBy (f.below.length - g.below.length) g
    if f.below.length ≠ g.below.length then .error .assertion
    else .ok { f with
      below := List.zipWith (fun w w' => w.mergeWith w' mergeWithBitOr) f.below g.below
      top := f.top.mergeWith g.top mergeWithBitOr }

/-! ## The invariant -/

/-- While windows are manufactured, the stack holds the current window alone. -/
def Ok (f : DataflowFn) : Prop := 0 < f.numPreSaveFramesManufactured → f.below = []

variable {f g h : DataflowFn}

theorem ok_ofBools (t b : Bool) : (ofBools t b).Ok := fun _ => rfl

/-- A save from the only window manufactures one. -/
theorem processSave_of_nil (hb : f.below = []) :
    f.processSave = .ok ⟨[], (Window.ofBools true false).processRestore f.top,
      (f.numPreSaveFramesManufactured + 1) % 2 ^ 32⟩ := by
  simp [processSave, hb]

/-- A save returns to the window below. -/
theorem processSave_of_concat (hok : f.Ok) {b : List Window} {w : Window}
    (hb : f.below = b ++ [w]) :
    f.processSave = .ok ⟨b, w.processRestore f.top, f.numPreSaveFramesManufactured⟩ := by
  have hm : ¬0 < f.numPreSaveFramesManufactured := fun hm => by
    have := hok hm
    rw [hb] at this
    exact absurd this (by simp)
  simp [processSave, hb, hm]

theorem processRestore_of_pos (hok : f.Ok) (hm : 0 < f.numPreSaveFramesManufactured) :
    f.processRestore = .ok ⟨[], f.top.save, f.numPreSaveFramesManufactured - 1⟩ := by
  simp [processRestore, hm, hok hm]

theorem processRestore_of_zero (hm : f.numPreSaveFramesManufactured = 0) :
    f.processRestore = .ok ⟨f.below ++ [f.top], f.top.save, 0⟩ := by
  simp [processRestore, hm]

/-- Saves keep the invariant and never fail under it. -/
theorem Ok.processSave (hok : f.Ok) : ∃ f', f.processSave = .ok f' ∧ f'.Ok := by
  rcases eq_nil_or_concat f.below with hb | ⟨b, w, hb⟩
  · exact ⟨_, processSave_of_nil hb, fun _ => rfl⟩
  · rw [concat_eq_append] at hb
    refine ⟨_, processSave_of_concat hok hb, fun hm => ?_⟩
    exact absurd (hb ▸ hok hm) (by simp)

/-- Restores keep the invariant and never fail under it. -/
theorem Ok.processRestore (hok : f.Ok) : ∃ f', f.processRestore = .ok f' ∧ f'.Ok := by
  rcases Nat.eq_zero_or_pos f.numPreSaveFramesManufactured with hm | hm
  · exact ⟨_, processRestore_of_zero hm, fun h => absurd h (Nat.lt_irrefl 0)⟩
  · exact ⟨_, processRestore_of_pos hok hm, fun _ => rfl⟩

theorem Ok.composeTop (hok : f.Ok) (w : Window) : (f.composeTop w).Ok := hok

theorem Ok.processSaves (n : Nat) : ∀ {f : DataflowFn}, f.Ok →
    ∃ f', processSaves n f = .ok f' ∧ f'.Ok := by
  induction n with
  | zero => intro f hok; exact ⟨f, rfl, hok⟩
  | succ n ih =>
    intro f hok
    obtain ⟨f₁, hs, hok₁⟩ := hok.processSave
    obtain ⟨f', hrun, hok'⟩ := ih hok₁
    exact ⟨f', by rw [DataflowFn.processSaves, hs]; exact hrun, hok'⟩

theorem Ok.composeBelow : ∀ (ws : List Window) {g : DataflowFn}, g.Ok →
    ∃ g', composeBelow ws g = .ok g' ∧ g'.Ok := by
  intro ws
  induction ws with
  | nil => intro g hok; exact ⟨g, rfl, hok⟩
  | cons w ws ih =>
    intro g hok
    obtain ⟨g₁, hr, hok₁⟩ := (hok.composeTop w).processRestore
    obtain ⟨g', hrun, hok'⟩ := ih hok₁
    exact ⟨g', by rw [DataflowFn.composeBelow, hr]; exact hrun, hok'⟩

/-- Composition keeps the invariant and never fails under it. -/
theorem Ok.compose (hg : g.Ok) (f : DataflowFn) : ∃ r, f.compose g = .ok r ∧ r.Ok := by
  unfold DataflowFn.compose
  split
  · obtain ⟨r, hr, hok⟩ := Ok.processSaves f.numPreSaveFramesManufactured hg
    exact ⟨r.composeTop f.top, by rw [hr]; rfl, hok⟩
  · obtain ⟨r, hr, hok⟩ := Ok.composeBelow f.below hg
    exact ⟨r.composeTop f.top, by rw [hr]; rfl, hok⟩

theorem boostBy_manufactured : ∀ (n : Nat) {f f' : DataflowFn}, boostBy n f = .ok f' →
    f'.numPreSaveFramesManufactured = f.numPreSaveFramesManufactured := by
  intro n
  induction n with
  | zero => intro f f' h; cases h; rfl
  | succ n ih =>
    intro f f' h
    rcases hb : f.boost with e | f₁
    · simp only [boostBy, hb] at h
      cases h
    · have h₁ : f₁.numPreSaveFramesManufactured = f.numPreSaveFramesManufactured := by
        unfold boost at hb
        split at hb
        · cases hb
        · cases hb; rfl
      simp only [boostBy, hb] at h
      exact (ih h).trans h₁

/-- A merge keeps the invariant: of functions with manufactured windows it merges the
current windows only. -/
theorem Ok.mergeWith (hf : f.Ok) {b : Bool} {r : DataflowFn} (h : f.mergeWith g b = .ok r) :
    r.Ok := by
  unfold DataflowFn.mergeWith at h
  split at h
  · split at h
    · cases h
      exact hf
    · cases h
  · rename_i hm
    rcases hf' : boostBy (g.below.length - f.below.length) f with e | f'
    · rw [hf'] at h; cases h
    have hzero : f'.numPreSaveFramesManufactured = 0 := by
      rw [boostBy_manufactured _ hf']
      omega
    rw [hf'] at h
    simp only [bind, Except.bind] at h
    split at h
    · cases h
    · split at h
      · cases h
      · cases h
        exact fun hpos => absurd hzero (Nat.ne_of_gt hpos)

/-! ## The two composition routines -/

/-- The functions that an analysis can build. -/
inductive Reachable : DataflowFn → Prop
  | passAllRegs : Reachable passAllRegs
  | startAllRegs : Reachable startAllRegs
  | stopAllRegs : Reachable stopAllRegs
  | passSet {f : DataflowFn} (regs) : Reachable f → Reachable (f.passSet regs)
  | startSet {f : DataflowFn} (set) : Reachable f → Reachable (f.startSet set)
  | stopSet {f : DataflowFn} (set) : Reachable f → Reachable (f.stopSet set)
  | processSave {f f' : DataflowFn} : Reachable f → f.processSave = .ok f' → Reachable f'
  | processRestore {f f' : DataflowFn} : Reachable f → f.processRestore = .ok f' → Reachable f'
  | mergeWith {f g r : DataflowFn} (b) : Reachable f → Reachable g → f.mergeWith g b = .ok r →
      Reachable r
  | compose {f g r : DataflowFn} : Reachable f → Reachable g → f.compose g = .ok r → Reachable r

theorem Reachable.ok (h : Reachable f) : f.Ok := by
  induction h with
  | passAllRegs | startAllRegs | stopAllRegs => exact ok_ofBools _ _
  | passSet regs _ ih | startSet set _ ih | stopSet set _ ih => exact ih
  | processSave _ hs ih =>
    obtain ⟨f', hf', hok⟩ := ih.processSave
    rw [hs] at hf'
    cases hf'
    exact hok
  | processRestore _ hr ih =>
    obtain ⟨f', hf', hok⟩ := ih.processRestore
    rw [hr] at hf'
    cases hf'
    exact hok
  | mergeWith b _ _ hm ihf _ => exact ihf.mergeWith hm
  | compose _ _ hc _ ihg =>
    obtain ⟨r, hr, hok⟩ := ihg.compose _
    rw [hc] at hr
    cases hr
    exact hok

theorem eq_refl (f : DataflowFn) : f.eq f = true := by
  have hbelow : (zipWith Window.equalIsAndLs f.below f.below).all id = true := by
    rw [zipWith_self, all_map]
    refine all_eq_true.mpr fun w _ => ?_
    exact w.equalIsAndLs_refl
  unfold eq
  split
  · rename_i hm
    rw [hm]
    exact beq_self_eq_true _
  · rw [if_neg (not_not.mpr rfl), if_neg (not_not.mpr rfl), hbelow]
    exact beq_self_eq_true f.top

/-- Under the invariant the in-place routine does the same work as the other. -/
theorem compose_eq_composeOverwriteParam (hf : f.Ok) (g : DataflowFn) :
    f.compose g = f.composeOverwriteParam g := by
  unfold compose composeOverwriteParam
  split
  · rename_i hm
    rw [hf hm]
    cases processSaves f.numPreSaveFramesManufactured g <;> rfl
  · rename_i hm
    rw [Nat.eq_zero_of_not_pos hm]
    rfl

/-- **The two composition routines agree** on all functions that an analysis can
build: neither gives up, and their results are equal. -/
theorem compose_agrees_composeOverwriteParam (hf : Reachable f) (hg : Reachable g) :
    ∃ r r', f.compose g = .ok r ∧ f.composeOverwriteParam g = .ok r' ∧ r.eq r' = true := by
  obtain ⟨r, hr, -⟩ := hg.ok.compose f
  exact ⟨r, r, hr, (compose_eq_composeOverwriteParam hf.ok g).symm.trans hr, r.eq_refl⟩

/-- The agreement for a save followed by a start, composed with a restore. -/
theorem compose_agrees_save_restore :
    ∃ f g : DataflowFn, passAllRegs.processSave = .ok f ∧ stopAllRegs.processRestore = .ok g ∧
      ∃ r r', (f.startSet .fullset).compose g = .ok r ∧
        (f.startSet .fullset).composeOverwriteParam g = .ok r' ∧ r.eq r' = true :=
  ⟨_, _, rfl, rfl,
    compose_agrees_composeOverwriteParam (.startSet _ (.processSave .passAllRegs rfl))
      (.processRestore .stopAllRegs rfl)⟩

end DataflowFn

end Kerninst
