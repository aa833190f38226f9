import Mathlib.Data.List.Chain
import Kerninst.Dataflow.Fn

/-!
# Composition against concatenation

`fnOf s` is the function that a sequence of operations makes from the function
that passes everything. Composing the functions of two sequences should be the
function of the two in a row. The composition knows of the second sequence only
its function, and that function forgets two things:

* `pass` overwrites what was there, and a function that passes a register cannot
  say whether it was told to. What lies under the current window then (`under`) shows
  through;
* a restore out of a *manufactured* window drops the `%l` and `%i` registers of that
  window, because it does not know which window it stands for. If the same restore
  leaves a real window on the other side of the comparison, that side keeps them.

Where neither happens composition is concatenation (`compose_performAll`). The proof
follows the second sequence operation by operation; `Follows f g` is what it keeps
about the stack of the function `f` built so far, against the function `g` of the
first sequence.
-/

namespace Kerninst

open Window DataflowFn
open List (reverseRecOn eq_nil_or_concat' cons_append isChain_singleton append_assoc count_append)

/-- An operation of an analysis on the function it is building. -/
inductive DataflowOp
  | pass (regs : SparcRegSet)
  | start (set : SparcRegSet)
  | stop (set : SparcRegSet)
  | save
  | restore
deriving DecidableEq

namespace DataflowFn

def apply (f : DataflowFn) : DataflowOp → Except DataflowError DataflowFn
  | .pass regs => .ok (f.passSet regs)
  | .start set => .ok (f.startSet set)
  | .stop set => .ok (f.stopSet set)
  | .save => f.processSave
  | .restore => f.processRestore

def run (f : DataflowFn) (s : List DataflowOp) : Except DataflowError DataflowFn :=
  s.foldlM apply f

/-- The function of a sequence of operations. -/
def fnOf (s : List DataflowOp) : Except DataflowError DataflowFn := passAllRegs.run s

end DataflowFn

/-! ## Work on windows

To the proof a start and a stop are the same: both compose a function onto the current window. So
are the effects of a call, which are composed window by window. -/

inductive WindowOp
  | pass (regs : SparcRegSet)
  | comp (w : Window)
  | save
  | restore
deriving DecidableEq

def DataflowOp.onWindow : DataflowOp → WindowOp
  | .pass regs => .pass regs
  | .start set => .comp ((Window.ofBools true false).startSet set)
  | .stop set => .comp ((Window.ofBools true false).stopSet set)
  | .save => .save
  | .restore => .restore

namespace DataflowFn

def perform (f : DataflowFn) : WindowOp → Except DataflowError DataflowFn
  | .pass regs => .ok (f.passSet regs)
  | .comp w => .ok (f.composeTop w)
  | .save => f.processSave
  | .restore => f.processRestore

def performAll (f : DataflowFn) (s : List WindowOp) : Except DataflowError DataflowFn :=
  s.foldlM perform f

variable {f f' g h r r' : DataflowFn} {op : WindowOp}

theorem startSet_eq_composeTop (f : DataflowFn) (set : SparcRegSet) :
    f.startSet set = f.composeTop ((Window.ofBools true false).startSet set) := by
  rw [startSet, composeTop, startSet_compose, pass_compose]

theorem stopSet_eq_composeTop (f : DataflowFn) (set : SparcRegSet) :
    f.stopSet set = f.composeTop ((Window.ofBools true false).stopSet set) := by
  rw [stopSet, composeTop, stopSet_compose, pass_compose]

theorem apply_eq_perform (f : DataflowFn) (op : DataflowOp) :
    f.apply op = f.perform op.onWindow := by
  cases op with
  | start set => exact congrArg Except.ok (f.startSet_eq_composeTop set)
  | stop set => exact congrArg Except.ok (f.stopSet_eq_composeTop set)
  | pass regs | save | restore => rfl

theorem run_eq_performAll (f : DataflowFn) (s : List DataflowOp) :
    f.run s = f.performAll (s.map DataflowOp.onWindow) := by
  rw [run, performAll, List.foldlM_map]
  exact congrArg (fun a => s.foldlM a f) (funext fun g => funext fun op => g.apply_eq_perform op)

theorem performAll_append (f : DataflowFn) (s t : List WindowOp) :
    f.performAll (s ++ t) = f.performAll s >>= fun h => h.performAll t :=
  List.foldlM_append

theorem performAll_concat {s : List WindowOp} (hs : f.performAll s = .ok h) (op : WindowOp) :
    f.performAll (s ++ [op]) = h.perform op := by
  rw [performAll_append, hs]
  exact bind_pure (h.perform op)

theorem Ok.perform (hok : f.Ok) (op : WindowOp) : ∃ f', f.perform op = .ok f' ∧ f'.Ok := by
  cases op with
  | pass regs | comp w => exact ⟨_, rfl, hok⟩
  | save => exact hok.processSave
  | restore => exact hok.processRestore

theorem Ok.performAll (hok : f.Ok) (s : List WindowOp) : ∃ h, f.performAll s = .ok h ∧ h.Ok := by
  induction s using reverseRecOn with
  | nil => exact ⟨f, rfl, hok⟩
  | append_singleton s op ih =>
    obtain ⟨h, hs, hh⟩ := ih
    obtain ⟨h', ha, hh'⟩ := hh.perform op
    exact ⟨h', (performAll_concat hs op).trans ha, hh'⟩

/-! ## Equality of functions -/

/-- What `operator==` compares. -/
structure Same (f g : DataflowFn) : Prop where
  manufactured : f.numPreSaveFramesManufactured = g.numPreSaveFramesManufactured
  below : List.Forall₂ (fun w w' => Window.equalIsAndLs w w' = true) f.below g.below
  top : f.top = g.top

theorem Same.refl (f : DataflowFn) : f.Same f :=
  ⟨rfl, List.forall₂_same.mpr fun w _ => w.equalIsAndLs_refl, rfl⟩

theorem forall₂_equalIsAndLs_trans {l₁ l₂ : List Window}
    (h : List.Forall₂ (fun w w' => Window.equalIsAndLs w w' = true) l₁ l₂) :
    ∀ {l₃ : List Window}, List.Forall₂ (fun w w' => Window.equalIsAndLs w w' = true) l₂ l₃ →
      List.Forall₂ (fun w w' => Window.equalIsAndLs w w' = true) l₁ l₃ := by
  induction h with
  | nil => intro l₃ h'; cases h'; exact .nil
  | cons hw _ ih =>
    intro l₃ h'
    cases h' with
    | cons hw' ht => exact .cons (equalIsAndLs_trans hw hw') (ih ht)

theorem Same.trans (hfg : f.Same g) (hgh : g.Same h) : f.Same h :=
  ⟨hfg.manufactured.trans hgh.manufactured, forall₂_equalIsAndLs_trans hfg.below hgh.below,
    hfg.top.trans hgh.top⟩

theorem Same.eq (hs : f.Same g) : f.eq g = true := by
  have hall : ∀ {l l' : List Window}, List.Forall₂ (fun w w' => equalIsAndLs w w' = true) l l' →
      (List.zipWith equalIsAndLs l l').all id = true := by
    intro l l' hl
    induction hl with
    | nil => rfl
    | cons hw _ ih => simpa [hw] using ih
  have hlen := hs.below.length_eq
  unfold DataflowFn.eq
  rw [hs.manufactured, hs.top, hlen, hall hs.below]
  split
  · rename_i hm
    rw [hm]
    exact beq_self_eq_true _
  · rw [if_neg (not_not.mpr rfl), if_neg (not_not.mpr rfl)]
    exact beq_self_eq_true _

/-- Every operation respects equality. -/
theorem Same.perform (hs : f.Same g) (hf : f.Ok) (hg : g.Ok) (op : WindowOp)
    (ha : f.perform op = .ok f') : ∃ g', g.perform op = .ok g' ∧ f'.Same g' := by
  obtain ⟨hm, hb, ht⟩ := hs
  cases op with
  | pass regs => cases ha; exact ⟨_, rfl, hm, hb, congrArg (Window.passSet · regs) ht⟩
  | comp w => cases ha; exact ⟨_, rfl, hm, hb, congrArg w.composeOverwriteParam ht⟩
  | save =>
    simp only [DataflowFn.perform] at ha ⊢
    rcases eq_nil_or_concat' f.below with hfb | ⟨b, w, hfb⟩
    · have hgb : g.below = [] := by
        rw [hfb] at hb
        exact List.forall₂_nil_left_iff.mp hb
      rw [processSave_of_nil hfb] at ha
      cases ha
      exact ⟨_, processSave_of_nil hgb, by rw [hm], .nil, by rw [ht]⟩
    · rcases eq_nil_or_concat' g.below with hgb | ⟨b', w', hgb⟩
      · have hlen := hb.length_eq
        rw [hfb, hgb] at hlen
        simp at hlen
      rw [hfb, hgb] at hb
      rw [← List.forall₂_reverse_iff, List.reverse_concat, List.reverse_concat] at hb
      obtain ⟨hww, hbb⟩ := List.forall₂_cons.mp hb
      rw [List.forall₂_reverse_iff] at hbb
      rw [processSave_of_concat hf hfb] at ha
      cases ha
      exact ⟨_, processSave_of_concat hg hgb, hm, hbb, by
        rw [ht]; exact processRestore_congr hww g.top⟩
  | restore =>
    simp only [DataflowFn.perform] at ha ⊢
    rcases Nat.eq_zero_or_pos f.numPreSaveFramesManufactured with hz | hp
    · rw [processRestore_of_zero hz] at ha
      cases ha
      refine ⟨_, processRestore_of_zero (hm ▸ hz), rfl, ?_, by rw [ht]⟩
      refine List.rel_append hb (.cons ?_ .nil)
      rw [ht]
      exact g.top.equalIsAndLs_refl
    · rw [processRestore_of_pos hf hp] at ha
      cases ha
      exact ⟨_, processRestore_of_pos hg (hm ▸ hp), by rw [hm], .nil, by rw [ht]⟩

/-! ## One more operation on the left -/

theorem composeBelow_concat (ws : List Window) (w : Window) :
    ∀ g : DataflowFn, composeBelow (ws ++ [w]) g =
      composeBelow ws g >>= fun h => (h.composeTop w).processRestore := by
  induction ws with
  | nil => intro g; exact bind_pure _
  | cons v ws ih =>
    intro g
    rw [cons_append, composeBelow, composeBelow, bind_assoc]
    exact congrArg _ (funext ih)

/-- A restore saves the current window, whatever becomes of the others. -/
theorem top_of_processRestore (h : f.processRestore = .ok f') : f'.top = f.top.save := by
  simp only [processRestore] at h
  split at h
  · split at h <;> cases h
    rfl
  · cases h
    rfl

theorem processSaves_succ (n : Nat) : ∀ g : DataflowFn,
    processSaves (n + 1) g = processSaves n g >>= fun h => h.processSave := by
  induction n with
  | zero => intro g; exact bind_pure _
  | succ n ih =>
    intro g
    rw [processSaves, processSaves, bind_assoc]
    exact congrArg _ (funext ih)

/-- A save counts at most one manufactured window. -/
theorem processSave_manufactured_le (hok : f.Ok) (hs : f.processSave = .ok f') :
    f'.numPreSaveFramesManufactured ≤ f.numPreSaveFramesManufactured + 1 := by
  rcases eq_nil_or_concat' f.below with hb | ⟨b, w, hb⟩
  · rw [processSave_of_nil hb] at hs
    cases hs
    exact Nat.mod_le _ _
  · rw [processSave_of_concat hok hb] at hs
    cases hs
    exact Nat.le_succ _

theorem processRestore_manufactured_le (hok : f.Ok) (hr : f.processRestore = .ok f') :
    f'.numPreSaveFramesManufactured ≤ f.numPreSaveFramesManufactured := by
  rcases Nat.eq_zero_or_pos f.numPreSaveFramesManufactured with hz | hp
  · rw [processRestore_of_zero hz] at hr
    cases hr
    exact Nat.zero_le _
  · rw [processRestore_of_pos hok hp] at hr
    cases hr
    exact Nat.sub_le _ _

theorem processSaves_manufactured_le (n : Nat) : ∀ {g h : DataflowFn}, g.Ok →
    processSaves n g = .ok h →
    h.numPreSaveFramesManufactured ≤ g.numPreSaveFramesManufactured + n := by
  induction n with
  | zero => intro g h _ hs; cases hs; exact Nat.le_refl _
  | succ n ih =>
    intro g h hg hs
    obtain ⟨g₁, h₁, hok₁⟩ := hg.processSave
    rw [processSaves, h₁] at hs
    have := ih hok₁ hs
    have := processSave_manufactured_le hg h₁
    omega

theorem composeBelow_manufactured_le : ∀ (ws : List Window) {g h : DataflowFn}, g.Ok →
    composeBelow ws g = .ok h →
    h.numPreSaveFramesManufactured ≤ g.numPreSaveFramesManufactured := by
  intro ws
  induction ws with
  | nil => intro g h _ hs; cases hs; exact Nat.le_refl _
  | cons w ws ih =>
    intro g h hg hs
    obtain ⟨g₁, h₁, hok₁⟩ := (hg.composeTop w).processRestore
    rw [composeBelow, h₁] at hs
    exact (ih hok₁ hs).trans (processRestore_manufactured_le (f := g.composeTop w) hg h₁)

/-- The two halves of a composition whose function has manufactured windows, or only
one window: the saves, then the current window. -/
theorem compose_of_nil (hb : f.below = [])
    (hs : processSaves f.numPreSaveFramesManufactured g = .ok h) :
    f.compose g = .ok (h.composeTop f.top) := by
  rw [compose_eq_composeOverwriteParam (fun _ => hb), composeOverwriteParam, hs, hb]
  rfl

/-- The two halves of a composition without manufactured windows: the lower windows,
then the current one. -/
theorem compose_of_zero (hm : f.numPreSaveFramesManufactured = 0)
    (hs : composeBelow f.below g = .ok h) : f.compose g = .ok (h.composeTop f.top) := by
  rw [compose, if_neg (by omega), hs]
  rfl

/-- What the proof keeps about the function `f` of the part of the second sequence
seen so far, against the function `g` of the first sequence. -/
structure Follows (f g : DataflowFn) : Prop where
  ok : f.Ok
  /-- each window has absorbed the one below it -/
  absorbs : List.IsChain (fun a c => Window.Absorbs c a) (f.below ++ [f.top])
  /-- a lower window of `f` that stands for a manufactured window passes its `%l`s and
  `%i`s once composed -/
  passes : ∀ b a c, f.below = b ++ a :: c → ∀ h, composeBelow b g = .ok h →
    0 < h.numPreSaveFramesManufactured → (a.composeOverwriteParam h.top).PassesIsAndLs

/-- A function of one window follows anything. -/
theorem Follows.of_nil (hb : f.below = []) (g : DataflowFn) : f.Follows g where
  ok _ := hb
  absorbs := by rw [hb]; exact isChain_singleton _
  passes b a c hs := by
    rw [hb] at hs
    exact absurd hs.symm (by simp)

/-- The loops of a composition do not read the current window of its left side. -/
theorem compose_withTop (hf : f.Ok) (hg : g.Ok) : ∃ h : DataflowFn,
    ∀ w, ({ f with top := w } : DataflowFn).compose g = .ok (h.composeTop w) := by
  rcases Nat.eq_zero_or_pos f.numPreSaveFramesManufactured with hz | hp
  · obtain ⟨h, hs, -⟩ := Ok.composeBelow f.below hg
    exact ⟨h, fun w => compose_of_zero (f := { f with top := w }) hz hs⟩
  · obtain ⟨h, hs, -⟩ := Ok.processSaves f.numPreSaveFramesManufactured hg
    exact ⟨h, fun w => compose_of_nil (f := { f with top := w }) (hf hp) hs⟩

/-- What is under the current window of `f` once it is composed with `g`: the composition, had `f`
left its current window alone. -/
def under (f g : DataflowFn) : Except DataflowError DataflowFn :=
  ({ f with top := Window.ofBools true false } : DataflowFn).compose g

/-- The invariant reads of the current window only what it has absorbed. -/
theorem Follows.withTop (hf : f.Follows g) {w : Window}
    (hw : ∀ b a, f.below = b ++ [a] → f.top.Absorbs a → w.Absorbs a) :
    ({ f with top := w } : DataflowFn).Follows g := by
  refine ⟨hf.ok, ?_, hf.passes⟩
  obtain ⟨hl, -, hlast⟩ := List.isChain_append.mp hf.absorbs
  refine List.isChain_append.mpr ⟨hl, isChain_singleton _, fun a ha c hc => ?_⟩
  obtain rfl : w = c := by simpa using hc
  obtain ⟨b, hb⟩ := List.getLast?_eq_some_iff.mp ha
  exact hw b a hb (hlast a ha f.top (by simp))

section Composed

variable (hf : f.Follows g) (hg : g.Ok) (hr : f.compose g = .ok r)
include hf hg hr

/-- **Work on the current window** on the left of a composition is work on that of its result. -/
theorem Follows.compose_comp (w : Window) :
    (f.composeTop w).compose g = .ok (r.composeTop w) ∧ (f.composeTop w).Follows g := by
  obtain ⟨h, hcomp⟩ := compose_withTop hf.ok hg
  have hrh : r = h.composeTop f.top := Except.ok.inj (hr.symm.trans (hcomp f.top))
  refine ⟨(hcomp _).trans ?_, hf.withTop fun b a hb ha => ha.comp w⟩
  rw [hrh, composeTop, compose_assoc]
  rfl

/-- **A pass** on the left of a composition is one on its result, if the registers were passing
under the current window. -/
theorem Follows.compose_pass {u : DataflowFn} (hu : f.under g = .ok u) {regs : SparcRegSet}
    (hpass : u.top.PassesSet regs) :
    (f.passSet regs).compose g = .ok (r.passSet regs) ∧ (f.passSet regs).Follows g := by
  obtain ⟨h, hcomp⟩ := compose_withTop hf.ok hg
  have hrh : r = h.composeTop f.top := Except.ok.inj (hr.symm.trans (hcomp f.top))
  have hpass' : h.top.PassesSet regs := by
    rw [Except.ok.inj (hu.symm.trans (hcomp _))] at hpass
    rwa [← pass_compose h.top]
  refine ⟨(hcomp _).trans ?_, hf.withTop fun b a hb ha => ha.passSet ?_⟩
  · rw [hrh, DataflowFn.composeTop, passSet_compose _ hpass']
    rfl
  · -- the window below was composed last, and then saved
    have hz : f.numPreSaveFramesManufactured = 0 :=
      Nat.eq_zero_of_not_pos fun hpos => by simp [hf.ok hpos] at hb
    obtain ⟨h₁, hs₁, hok₁⟩ := Ok.composeBelow b hg
    obtain ⟨h₂, hs₂, -⟩ := Ok.processRestore (f := h₁.composeTop a) hok₁
    have hbelow : composeBelow f.below g = .ok h₂ := by
      rw [hb, composeBelow_concat, hs₁]
      exact hs₂
    have hu₂ : u = h₂.composeTop (Window.ofBools true false) :=
      Except.ok.inj (hu.symm.trans
        (compose_of_zero (f := { f with top := Window.ofBools true false }) hz hbelow))
    rw [hu₂, composeTop, pass_compose, top_of_processRestore hs₂] at hpass
    exact hpass.of_save_compose

/-- **A restore that pushes a window** on the left of a composition is one on its
result. -/
theorem Follows.compose_restore_push (hm : f.numPreSaveFramesManufactured = 0)
    (hpass : 0 < r.numPreSaveFramesManufactured → r.top.PassesIsAndLs)
    (hf' : f.processRestore = .ok f') (hr' : r.processRestore = .ok r') :
    f'.compose g = .ok r' ∧ f'.Follows g := by
  rw [processRestore_of_zero hm] at hf'
  cases hf'
  obtain ⟨h, hs, hh⟩ := Ok.composeBelow f.below hg
  rw [compose_of_zero hm hs] at hr
  cases hr
  have hbelow : composeBelow (f.below ++ [f.top]) g = .ok r' := by
    rw [composeBelow_concat, hs]
    exact hr'
  have htop : r'.top = (f.top.composeOverwriteParam h.top).save := by
    rcases Nat.eq_zero_or_pos h.numPreSaveFramesManufactured with hz | hp
    · rw [processRestore_of_zero (f := h.composeTop f.top) hz] at hr'
      cases hr'
      rfl
    · rw [processRestore_of_pos (f := h.composeTop f.top) hh hp] at hr'
      cases hr'
      rfl
  refine ⟨?_, fun hp => absurd hp (Nat.lt_irrefl 0), ?_, ?_⟩
  · rw [compose_of_zero rfl hbelow, composeTop, htop, save_compose_save, ← htop]
  · refine List.isChain_append.mpr ⟨hf.absorbs, isChain_singleton _, fun a ha c hc => ?_⟩
    obtain rfl : f.top.save = c := by simpa using hc
    obtain rfl : f.top = a := by simpa using ha
    exact Absorbs.save f.top
  · intro b a c hsplit h' hs' hp
    rcases eq_nil_or_concat' c with rfl | ⟨c, d, rfl⟩
    · -- the window just pushed over
      obtain ⟨hb, hta⟩ := List.append_inj' hsplit rfl
      obtain rfl : f.top = a := by simpa using hta
      rw [← hb, hs] at hs'
      cases hs'
      exact hpass hp
    · rw [← cons_append, ← append_assoc] at hsplit
      obtain ⟨hb, -⟩ := List.append_inj' hsplit rfl
      exact hf.passes b a c hb h' hs' hp

/-- **A restore out of a manufactured window** on the left of a composition is one
on its result, provided it passes the `%l`s and `%i`s if the result has the window. -/
theorem Follows.compose_restore_pop (hm : 0 < f.numPreSaveFramesManufactured)
    (hbound : g.numPreSaveFramesManufactured + f.numPreSaveFramesManufactured < 2 ^ 32)
    (hpass : r.numPreSaveFramesManufactured = 0 → f.top.PassesIsAndLs)
    (hf' : f.processRestore = .ok f') (hr' : r.processRestore = .ok r') :
    ∃ r'', f'.compose g = .ok r'' ∧ r''.Same r' ∧ f'.Follows g := by
  obtain ⟨m, hm'⟩ : ∃ m, f.numPreSaveFramesManufactured = m + 1 :=
    ⟨f.numPreSaveFramesManufactured - 1, by omega⟩
  rw [processRestore_of_pos hf.ok hm, hm', Nat.add_sub_cancel] at hf'
  cases hf'
  obtain ⟨h, hs, hh⟩ := Ok.processSaves m hg
  have hle := processSaves_manufactured_le m hg hs
  have hsaves : processSaves f.numPreSaveFramesManufactured g = h.processSave := by
    rw [hm', processSaves_succ, hs]
    rfl
  refine ⟨_, compose_of_nil rfl hs, ?_, of_nil rfl g⟩
  rcases eq_nil_or_concat' h.below with hb | ⟨b, a, hb⟩
  · -- the last save manufactures a window on both sides
    rw [processSave_of_nil hb, Nat.mod_eq_of_lt (by omega)] at hsaves
    rw [compose_of_nil (hf.ok hm) hsaves] at hr
    cases hr
    cases hr'
    refine ⟨rfl, by rw [composeTop, hb]; exact .nil, ?_⟩
    exact (save_compose_processRestore ..).symm
  · -- the last save returns to the window `a` of the result
    have hz : h.numPreSaveFramesManufactured = 0 := by
      refine Nat.eq_zero_of_not_pos fun hp => ?_
      rw [hh hp] at hb
      exact absurd hb.symm (by simp)
    rw [processSave_of_concat hh hb] at hsaves
    rw [compose_of_nil (hf.ok hm) hsaves] at hr
    cases hr
    rw [processRestore_of_zero (f := composeTop ⟨b, a.processRestore h.top, _⟩ f.top) hz] at hr'
    cases hr'
    refine ⟨hz, ?_, (save_compose_processRestore ..).symm⟩
    rw [composeTop, hb]
    refine List.rel_append (List.forall₂_same.mpr fun w _ => w.equalIsAndLs_refl) (.cons ?_ .nil)
    rw [equalIsAndLs_comm]
    change (f.top.composeOverwriteParam (a.processRestore h.top)).equalIsAndLs a = true
    refine equalIsAndLs_iff.mpr fun r hr => ?_
    simp [hr, hpass hz r hr]

omit hf in
/-- **A save that manufactures a window** on the left of a composition is a save on
its result. -/
theorem compose_save_manufacture (hb : f.below = [])
    (hbound : g.numPreSaveFramesManufactured + f.numPreSaveFramesManufactured + 1 < 2 ^ 32)
    (hf' : f.processSave = .ok f') (hr' : r.processSave = .ok r') :
    f'.compose g = .ok r' ∧ f'.Follows g := by
  rw [processSave_of_nil hb, Nat.mod_eq_of_lt (by omega)] at hf'
  cases hf'
  obtain ⟨h, hs, hh⟩ := Ok.processSaves f.numPreSaveFramesManufactured hg
  rw [compose_of_nil hb hs] at hr
  cases hr
  obtain ⟨h', hlast, -⟩ := hh.processSave
  have hsaves : processSaves (f.numPreSaveFramesManufactured + 1) g = .ok h' := by
    rw [processSaves_succ, hs]
    exact hlast
  refine ⟨?_, Follows.of_nil rfl g⟩
  rw [compose_of_nil rfl hsaves]
  rcases eq_nil_or_concat' h.below with hhb | ⟨b, a, hhb⟩
  · rw [processSave_of_nil hhb] at hlast
    rw [processSave_of_nil (f := h.composeTop f.top) hhb] at hr'
    cases hlast
    cases hr'
    exact congrArg (fun w => Except.ok (mk [] w _)) (pass_processRestore_compose ..)
  · rw [processSave_of_concat hh hhb] at hlast
    rw [processSave_of_concat (f := h.composeTop f.top) hh hhb] at hr'
    cases hlast
    cases hr'
    exact congrArg (fun w => Except.ok (mk b w _)) (pass_processRestore_compose ..)

/-- **A save that returns to a window** on the left of a composition is a save on its
result. -/
theorem Follows.compose_save_return {b : List Window} {a : Window} (hb : f.below = b ++ [a])
    (hbound : g.numPreSaveFramesManufactured < 2 ^ 32)
    (hf' : f.processSave = .ok f') (hr' : r.processSave = .ok r') :
    f'.compose g = .ok r' ∧ f'.Follows g := by
  have hm : f.numPreSaveFramesManufactured = 0 := by
    refine Nat.eq_zero_of_not_pos fun hp => ?_
    rw [hf.ok hp] at hb
    exact absurd hb.symm (by simp)
  rw [processSave_of_concat hf.ok hb] at hf'
  cases hf'
  obtain ⟨h, hs, hh⟩ := Ok.composeBelow b hg
  have hle := composeBelow_manufactured_le b hg hs
  have hbelow : composeBelow f.below g = (h.composeTop a).processRestore := by
    rw [hb, composeBelow_concat, hs]
    rfl
  have habs : f.top.Absorbs a := by
    have := hf.absorbs
    rw [hb, append_assoc] at this
    exact (List.isChain_append_cons_cons.mp this).2.1
  have hchain : List.IsChain (fun a c => Absorbs c a) (b ++ [a.processRestore f.top]) := by
    have := hf.absorbs
    rw [hb] at this
    obtain ⟨hb', -, hlast⟩ := List.isChain_append.mp (List.isChain_append.mp this).1
    refine List.isChain_append.mpr ⟨hb', isChain_singleton _, fun v hv c hc => ?_⟩
    obtain rfl : a.processRestore f.top = c := by simpa using hc
    exact habs.processRestore (hlast v hv a (by simp))
  have hlower : ∀ b' a' c, b = b' ++ a' :: c → f.below = b' ++ a' :: (c ++ [a]) := by
    intro b' a' c hs'
    rw [hb, hs', append_assoc, cons_append]
  refine ⟨?_, fun hp => absurd hp (by rw [hm]; exact Nat.lt_irrefl 0), hchain,
    fun b' a' c hs' => hf.passes b' a' (c ++ [a]) (hlower b' a' c hs')⟩
  rw [compose_of_zero (f := ⟨b, a.processRestore f.top, _⟩) hm hs, composeTop,
    ← processRestore_compose habs]
  rcases Nat.eq_zero_or_pos h.numPreSaveFramesManufactured with hz | hp
  · -- the window returned to is on the stack of the result
    rw [processRestore_of_zero (f := h.composeTop a) hz] at hbelow
    rw [compose_of_zero hm hbelow] at hr
    cases hr
    rw [processSave_of_concat (b := h.below) (fun hp => absurd hp (Nat.lt_irrefl 0)) rfl] at hr'
    cases hr'
    rw [hz]
    rfl
  · -- the result manufactures it again
    rw [processRestore_of_pos (f := h.composeTop a) hh hp] at hbelow
    rw [compose_of_zero hm hbelow] at hr
    cases hr
    rw [processSave_of_nil rfl] at hr'
    cases hr'
    have hpass := hf.passes b a [] hb h hs hp
    have hcount : (h.numPreSaveFramesManufactured - 1 + 1) % 2 ^ 32 =
        h.numPreSaveFramesManufactured := by
      rw [Nat.sub_add_cancel hp]
      exact Nat.mod_eq_of_lt (by omega)
    rw [hpass.processRestore_eq, hh hp]
    exact congrArg (fun n => Except.ok (DataflowFn.mk [] _ n)) hcount.symm

end Composed

/-! ## Whole sequences -/

/-- A sequence counts at most one manufactured window per save. -/
theorem performAll_manufactured_le (hok : f.Ok) (s : List WindowOp) :
    ∀ {h : DataflowFn}, f.performAll s = .ok h →
      h.numPreSaveFramesManufactured ≤ f.numPreSaveFramesManufactured + s.count .save := by
  induction s using reverseRecOn with
  | nil => intro h hs; cases hs; exact Nat.le_add_right _ _
  | append_singleton s op ih =>
    intro h hs
    obtain ⟨h₁, hs₁, hok₁⟩ := hok.performAll s
    rw [performAll_concat hs₁] at hs
    have hle := ih hs₁
    rw [count_append]
    cases op with
    | pass regs | comp w => cases hs; exact hle.trans (by simp)
    | save =>
      have := processSave_manufactured_le hok₁ hs
      simp only [List.count_singleton_self]
      omega
    | restore =>
      have := processRestore_manufactured_le hok₁ hs
      omega

/-- The restores of a sequence `s`, performed after `g`, that leave a manufactured window on
one side and a real one on the other leave it with all `%l`s and `%i`s passing. -/
def WindowsMatch (g : DataflowFn) (s : List WindowOp) : Prop :=
  ∀ p q f h, s = p ++ .restore :: q → passAllRegs.performAll p = .ok f → g.performAll p = .ok h →
    (0 < f.numPreSaveFramesManufactured → h.numPreSaveFramesManufactured = 0 →
      f.top.PassesIsAndLs) ∧
    (f.numPreSaveFramesManufactured = 0 → 0 < h.numPreSaveFramesManufactured →
      h.top.PassesIsAndLs)

/-- Each pass of a sequence `s`, performed after `g`, is of registers that were passing under the
current window. -/
def WindowsPass (g : DataflowFn) (s : List WindowOp) : Prop :=
  ∀ p q regs f u, s = p ++ .pass regs :: q → passAllRegs.performAll p = .ok f →
    f.under g = .ok u → u.top.PassesSet regs

theorem WindowsPass.of_append {s t : List WindowOp} (hp : WindowsPass g (s ++ t)) :
    WindowsPass g s := by
  intro p q regs f u hs
  exact hp p (q ++ t) regs f u (by rw [hs, append_assoc, cons_append])

theorem windowsPass_of_notMem {s : List WindowOp} (h : ∀ regs, .pass regs ∉ s) :
    WindowsPass g s := by
  intro p q regs f u hs
  exact absurd (by simp [hs]) (h regs)

theorem WindowsMatch.of_append {s t : List WindowOp} (hm : WindowsMatch g (s ++ t)) :
    WindowsMatch g s := by
  intro p q f h hs
  exact hm p (q ++ t) f h (by rw [hs, append_assoc, cons_append])

/-- Without saves no window is ever manufactured. -/
theorem windowsMatch_of_save_notMem {s : List WindowOp} (hg : g.Ok)
    (hzero : g.numPreSaveFramesManufactured = 0) (hs : .save ∉ s) : WindowsMatch g s := by
  intro p q f h hsplit hf hh
  have hp : p.count .save = 0 := by
    refine List.count_eq_zero.mpr fun hmem => hs ?_
    rw [hsplit]
    exact List.mem_append_left _ hmem
  have hfz : f.numPreSaveFramesManufactured ≤ 0 + p.count .save :=
    performAll_manufactured_le (ok_ofBools true false) p hf
  have hhz := performAll_manufactured_le hg p hh
  exact ⟨fun hpos => absurd hpos (by omega), fun _ hpos => absurd hpos (by omega)⟩

/-- One operation more: composition still follows concatenation. -/
theorem Follows.compose_perform (hf : f.Follows g) (hg : g.Ok) (hr : f.compose g = .ok r)
    (hpass : ∀ regs, op = .pass regs → ∃ u, f.under g = .ok u ∧ u.top.PassesSet regs)
    (hbound : g.numPreSaveFramesManufactured + f.numPreSaveFramesManufactured +
      List.count .save [op] < 2 ^ 32)
    (hmatch : op = .restore →
      (0 < f.numPreSaveFramesManufactured → r.numPreSaveFramesManufactured = 0 →
        f.top.PassesIsAndLs) ∧
      (f.numPreSaveFramesManufactured = 0 → 0 < r.numPreSaveFramesManufactured →
        r.top.PassesIsAndLs))
    (hf' : f.perform op = .ok f') (hr' : r.perform op = .ok r') :
    ∃ r'', f'.compose g = .ok r'' ∧ r''.Same r' ∧ f'.Follows g := by
  cases op with
  | pass regs =>
    cases hf'
    cases hr'
    obtain ⟨u, hu, hregs⟩ := hpass regs rfl
    obtain ⟨hc, hfol⟩ := hf.compose_pass hg hr hu hregs
    exact ⟨_, hc, .refl _, hfol⟩
  | comp w =>
    cases hf'
    cases hr'
    obtain ⟨hc, hfol⟩ := hf.compose_comp hg hr w
    exact ⟨_, hc, .refl _, hfol⟩
  | save =>
    rcases eq_nil_or_concat' f.below with hb | ⟨b, a, hb⟩
    · obtain ⟨hc, hfol⟩ := compose_save_manufacture hg hr hb hbound hf' hr'
      exact ⟨r', hc, .refl _, hfol⟩
    · obtain ⟨hc, hfol⟩ := hf.compose_save_return hg hr hb (by omega) hf' hr'
      exact ⟨r', hc, .refl _, hfol⟩
  | restore =>
    obtain ⟨hpop, hpush⟩ := hmatch rfl
    rcases Nat.eq_zero_or_pos f.numPreSaveFramesManufactured with hz | hp
    · obtain ⟨hc, hfol⟩ := hf.compose_restore_push hg hr hz (hpush hz) hf' hr'
      exact ⟨r', hc, .refl _, hfol⟩
    · exact hf.compose_restore_pop hg hr hp (by omega) (hpop hp) hf' hr'

/-- **Composition is concatenation**, along the second sequence. -/
theorem compose_performAll (hg : g.Ok) : ∀ (s : List WindowOp), WindowsPass g s →
    g.numPreSaveFramesManufactured + s.count .save < 2 ^ 32 → WindowsMatch g s →
    ∃ f h r, passAllRegs.performAll s = .ok f ∧ g.performAll s = .ok h ∧ f.compose g = .ok r ∧
      r.Same h ∧ f.Follows g := by
  intro s
  induction s using reverseRecOn with
  | nil =>
    intro _ _ _
    have hcomp : passAllRegs.compose g = .ok (g.composeTop passAllRegs.top) :=
      compose_of_nil rfl rfl
    have htop : g.composeTop passAllRegs.top = g :=
      congrArg (fun w => mk g.below w g.numPreSaveFramesManufactured) (pass_compose g.top)
    rw [htop] at hcomp
    exact ⟨passAllRegs, g, g, rfl, rfl, hcomp, .refl g, .of_nil rfl g⟩
  | append_singleton s op ih =>
    intro hpass hbound hmatch
    rw [count_append] at hbound
    obtain ⟨f, h, r, hfs, hgs, hr, hsame, hfol⟩ :=
      ih hpass.of_append (by omega) hmatch.of_append
    obtain ⟨f', hf', -⟩ := hfol.ok.perform op
    obtain ⟨r₀, hr₀, hrok⟩ := hg.compose f
    cases hr.symm.trans hr₀
    obtain ⟨h₀, hh₀, hhok⟩ := hg.performAll s
    cases hgs.symm.trans hh₀
    obtain ⟨r', hr', -⟩ := hrok.perform op
    obtain ⟨h', hh', hsame'⟩ := hsame.perform hrok hhok op hr'
    have hle : f.numPreSaveFramesManufactured ≤ 0 + s.count .save :=
      performAll_manufactured_le (ok_ofBools true false) s hfs
    obtain ⟨r'', hr'', hsame'', hfol'⟩ := hfol.compose_perform hg hr
      (fun regs he => by
        obtain ⟨u, hu, -⟩ := hg.compose { f with top := Window.ofBools true false }
        exact ⟨u, hu, hpass s [] regs f u (by rw [he]) hfs hu⟩)
      (by omega)
      (fun he => by
        have := hmatch s [] f h (by rw [he]) hfs hgs
        rw [← hsame.manufactured, ← hsame.top] at this
        exact this)
      hf' hr'
    exact ⟨f', h', r'', (performAll_concat hfs op).trans hf', (performAll_concat hgs op).trans hh',
      hr'', hsame''.trans hsame', hfol'⟩

/-! ## Sequences of operations -/

/-- The restores of a sequence `s`, run after `g`, that leave a manufactured window on
one side and a real one on the other leave it with all `%l`s and `%i`s passing. -/
def RestoresMatch (g : DataflowFn) (s : List DataflowOp) : Prop :=
  ∀ p q f h, s = p ++ .restore :: q → fnOf p = .ok f → g.run p = .ok h →
    (0 < f.numPreSaveFramesManufactured → h.numPreSaveFramesManufactured = 0 →
      f.top.PassesIsAndLs) ∧
    (f.numPreSaveFramesManufactured = 0 → 0 < h.numPreSaveFramesManufactured →
      h.top.PassesIsAndLs)

/-- Each pass of a sequence `s`, run after `g`, is of registers that were passing under the current
window: `g` has not started or stopped them, nor has `s` before its last restore. -/
def PassesMatch (g : DataflowFn) (s : List DataflowOp) : Prop :=
  ∀ p q regs f u, s = p ++ .pass regs :: q → fnOf p = .ok f → f.under g = .ok u →
    u.top.PassesSet regs

theorem PassesMatch.onWindow {s : List DataflowOp} (hp : PassesMatch g s) :
    WindowsPass g (s.map DataflowOp.onWindow) := by
  intro p q regs f u hs hf hu
  obtain ⟨p', t, rfl, rfl, ht⟩ := List.map_eq_append_iff.mp hs
  obtain ⟨op, q', rfl, hop, rfl⟩ := List.map_eq_cons_iff.mp ht
  obtain rfl : op = .pass regs := by cases op <;> cases hop; rfl
  rw [← run_eq_performAll] at hf
  exact hp p' q' regs f u rfl hf hu

theorem onWindow_eq_restore {op : DataflowOp} (h : op.onWindow = .restore) : op = .restore := by
  cases op <;> first | rfl | cases h

theorem count_save_onWindow (s : List DataflowOp) :
    (s.map DataflowOp.onWindow).count .save = s.count .save := by
  induction s with
  | nil => rfl
  | cons op s ih => cases op <;> simp [DataflowOp.onWindow, ih]

theorem RestoresMatch.onWindow {s : List DataflowOp} (hm : RestoresMatch g s) :
    WindowsMatch g (s.map DataflowOp.onWindow) := by
  intro p q f h hs hf hh
  obtain ⟨p', t, rfl, rfl, ht⟩ := List.map_eq_append_iff.mp hs
  obtain ⟨op, q', rfl, hop, rfl⟩ := List.map_eq_cons_iff.mp ht
  obtain rfl := onWindow_eq_restore hop
  rw [← run_eq_performAll] at hf hh
  exact hm p' q' f h rfl hf hh

/-- **Composition is concatenation.** If the passes and the restores of the second sequence
match in the two contexts and if the saves do not overflow the counter, the composition of
the functions of two sequences is the function of the two in a row. -/
theorem compose_fnOf_append (s₁ s₂ : List DataflowOp)
    (hpass : ∀ g, fnOf s₁ = .ok g → PassesMatch g s₂)
    (hsaves : (s₁ ++ s₂).count .save < 2 ^ 32)
    (hmatch : ∀ g, fnOf s₁ = .ok g → RestoresMatch g s₂) :
    ∃ g f h r, fnOf s₁ = .ok g ∧ fnOf s₂ = .ok f ∧ fnOf (s₁ ++ s₂) = .ok h ∧
      f.compose g = .ok r ∧ r.eq h = true := by
  obtain ⟨g, hgs, hg⟩ := Ok.performAll (ok_ofBools true false) (s₁.map DataflowOp.onWindow)
  have hle : g.numPreSaveFramesManufactured ≤ 0 + s₁.count .save := by
    rw [← count_save_onWindow]
    exact performAll_manufactured_le (ok_ofBools true false) _ hgs
  have hgs' : fnOf s₁ = .ok g := (run_eq_performAll _ _).trans hgs
  rw [count_append] at hsaves
  obtain ⟨f, h, r, hfs, hrun, hr, hsame, -⟩ := compose_performAll hg (s₂.map DataflowOp.onWindow)
    (hpass g hgs').onWindow (by rw [count_save_onWindow]; omega) (hmatch g hgs').onWindow
  refine ⟨g, f, h, r, hgs', (run_eq_performAll _ _).trans hfs, ?_, hr, hsame.eq⟩
  rw [fnOf, run_eq_performAll, List.map_append, performAll_append]
  exact (congrArg (· >>= _) hgs).trans hrun

/-- The set of the register `%l0`. -/
def onlyL0 : SparcRegSet := ⟨1 <<< 16, 0, 0⟩

/-- The set of the register `%g1`. -/
def onlyG1 : SparcRegSet := ⟨1 <<< 1, 0, 0⟩

/-- Composition is concatenation for a second sequence that starts and passes a register which the
first one left alone, and then saves and restores around a start. -/
theorem compose_fnOf_save_restore :
    ∃ g f h r, fnOf [.start onlyL0] = .ok g ∧
      fnOf [.start onlyG1, .pass onlyG1, .save, .start onlyL0, .restore] = .ok f ∧
      fnOf ([.start onlyL0] ++ [.start onlyG1, .pass onlyG1, .save, .start onlyL0, .restore]) =
        .ok h ∧
      f.compose g = .ok r ∧ r.eq h = true := by
  refine compose_fnOf_append _ _ (fun g hg p q regs f u hs hf hu => ?_) (by decide)
    fun g hg p q f h hs hf hh => ?_
  · -- the only pass is the second operation
    obtain ⟨rfl, rfl⟩ : p = [.start onlyG1] ∧ onlyG1 = regs := by
      rcases p with _ | ⟨a, _ | ⟨b, _ | ⟨c, _ | ⟨d, _ | ⟨e, p⟩⟩⟩⟩⟩ <;> simp at hs
      exact ⟨by rw [hs.1], hs.2.1⟩
    cases hg
    cases hf
    cases hu
    intro r hr
    cases r with
    | int r =>
      revert r
      decide
    | fp r | misc r => simp [SparcRegSet.mem, onlyG1] at hr
  · -- the only restore is the last operation, and both sides have manufactured one window
    obtain ⟨rfl, -⟩ : p = [.start onlyG1, .pass onlyG1, .save, .start onlyL0] ∧ q = [] := by
      rcases p with _ | ⟨a, _ | ⟨b, _ | ⟨c, _ | ⟨d, _ | ⟨e, p⟩⟩⟩⟩⟩ <;> simp_all
    cases hg
    cases hf
    cases hh
    exact ⟨fun _ hz => absurd hz (by decide), fun hz => absurd hz (by decide)⟩

/-- A pass is lost by composition: the function of a start is composed with that of a
pass to a start, but a pass after a start is a pass. -/
theorem compose_loses_pass :
    ∃ g f h r, fnOf [.start onlyL0] = .ok g ∧ fnOf [.pass onlyL0] = .ok f ∧
      fnOf ([.start onlyL0] ++ [.pass onlyL0]) = .ok h ∧ f.compose g = .ok r ∧
      r.eq h = false :=
  ⟨_, _, _, _, rfl, rfl, rfl, rfl, by decide⟩

end DataflowFn

end Kerninst
