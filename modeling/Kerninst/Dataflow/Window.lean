import Kerninst.Lib.BitFn
import Kerninst.Sparc.RegSet

/-!
# Data-flow functions of one register window

A window (`sparc_mbdf_window`) holds one monotone bit function per register, as
two register sets. All operations act register by register, so every law below
is proved by reading both sides at a register (`getFnForReg`, `ext_getFnForReg`):

* `compose_overwrite_param` is composition of the bit functions;
* the save constructor and `processRestore` move bit functions along
  `saveSource` and `restoreSource`.
-/

namespace Kerninst

open SparcRegSet BitFn

/-- `sparc_mbdf_window` -/
@[ext] structure Window where
  thru : SparcRegSet
  gen : SparcRegSet
deriving DecidableEq

namespace Window

/-- The constructor from two booleans. -/
def ofBools (ithru iGenForAll : Bool) : Window where
  thru := if ithru then .fullset else .emptyset
  gen := if iGenForAll then .fullset else .emptyset

def passSet (w : Window) (regs : SparcRegSet) : Window := ⟨w.thru ||| regs, w.gen - regs⟩

def startSet (w : Window) (set : SparcRegSet) : Window := ⟨w.thru - set, w.gen ||| set⟩

def stopSet (w : Window) (set : SparcRegSet) : Window := ⟨w.thru - set, w.gen - set⟩

/-- `compose_overwrite_param`: the function `w ∘ g`, written onto `g`. -/
def composeOverwriteParam (w g : Window) : Window :=
  ⟨g.thru &&& w.thru, (g.gen &&& w.thru) ||| w.gen⟩

/-- `mergeWith` -/
def mergeWith (w g : Window) (mergeWithBitOr : Bool) : Window :=
  if mergeWithBitOr then
    ⟨(w.thru ||| g.thru) &&& ~~~w.gen &&& ~~~g.gen, w.gen ||| g.gen⟩
  else
    ⟨(w.thru &&& (g.gen ||| g.thru)) ||| (w.gen &&& g.thru), w.gen &&& g.gen⟩

/-- The save constructor. -/
def save (src : Window) : Window := ⟨src.thru.save false, src.gen.save false⟩

def processRestore (w prevWindow : Window) : Window :=
  ⟨w.thru.processRestore prevWindow.thru, w.gen.processRestore prevWindow.gen⟩

def equalIsAndLs (w src : Window) : Bool :=
  w.thru.equalIsAndLs src.thru && w.gen.equalIsAndLs src.gen

/-! ## Register by register -/

/-- `getFnForReg`: the bit function of a register. -/
def getFnForReg (w : Window) (r : SparcReg) : BitFn := ⟨w.thru.mem r, w.gen.mem r⟩

theorem ext_getFnForReg {w w' : Window} (h : ∀ r, w.getFnForReg r = w'.getFnForReg r) : w = w' := by
  refine Window.ext (ext_mem fun r => ?_) (ext_mem fun r => ?_)
  · exact congrArg BitFn.thru (h r)
  · exact congrArg BitFn.gen (h r)

@[simp] theorem getFnForReg_pass (r : SparcReg) : (ofBools true false).getFnForReg r = .pass := by
  simp [ofBools, getFnForReg, BitFn.pass]

@[simp] theorem getFnForReg_passSet (w : Window) (regs : SparcRegSet) (r : SparcReg) :
    (w.passSet regs).getFnForReg r = if regs.mem r then .pass else w.getFnForReg r := by
  cases h : regs.mem r <;> simp [passSet, getFnForReg, BitFn.pass, h]

@[simp] theorem getFnForReg_startSet (w : Window) (set : SparcRegSet) (r : SparcReg) :
    (w.startSet set).getFnForReg r = if set.mem r then .start else w.getFnForReg r := by
  cases h : set.mem r <;> simp [startSet, getFnForReg, start, h]

@[simp] theorem getFnForReg_stopSet (w : Window) (set : SparcRegSet) (r : SparcReg) :
    (w.stopSet set).getFnForReg r = if set.mem r then .stop else w.getFnForReg r := by
  cases h : set.mem r <;> simp [stopSet, getFnForReg, stop, h]

@[simp] theorem getFnForReg_composeOverwriteParam (w g : Window) (r : SparcReg) :
    (w.composeOverwriteParam g).getFnForReg r = (w.getFnForReg r).comp (g.getFnForReg r) := by
  simp [composeOverwriteParam, getFnForReg, comp, Bool.and_comm]

@[simp] theorem getFnForReg_save (w : Window) (r : SparcReg) :
    w.save.getFnForReg r = match saveSource r with
      | some r' => w.getFnForReg r'
      | none => .stop := by
  simp only [getFnForReg, save, mem_save]
  cases saveSource r <;> rfl

@[simp] theorem getFnForReg_processRestore (w prev : Window) (r : SparcReg) :
    (w.processRestore prev).getFnForReg r = match restoreSource r with
      | some r' => prev.getFnForReg r'
      | none => w.getFnForReg r := by
  simp only [getFnForReg, processRestore, mem_processRestore]
  cases restoreSource r <;> rfl

/-- `equalIsAndLs` compares the bit functions of the registers that a restore leaves
in place. -/
theorem equalIsAndLs_iff {w w' : Window} : w.equalIsAndLs w' = true ↔
      ∀ r, restoreSource r = none → w.getFnForReg r = w'.getFnForReg r := by
  simp only [equalIsAndLs, Bool.and_eq_true, SparcRegSet.equalIsAndLs_iff, getFnForReg,
    BitFn.mk.injEq]
  exact ⟨fun h r hr => ⟨h.1 r hr, h.2 r hr⟩, fun h =>
    ⟨fun r hr => (h r hr).1, fun r hr => (h r hr).2⟩⟩

/-! ## Laws -/

/-- Doing a window's function again after it has been done and a new window saved
changes nothing. -/
theorem save_compose_save (t x : Window) :
    t.save.composeOverwriteParam (t.composeOverwriteParam x).save =
      (t.composeOverwriteParam x).save := by
  refine ext_getFnForReg fun r => ?_
  rw [getFnForReg_composeOverwriteParam, getFnForReg_save, getFnForReg_save]
  cases saveSource r <;> simp

/-- Restoring, working on the restored window and saving again is working on the
saved window. -/
theorem save_compose_processRestore (t a c : Window) :
    (t.composeOverwriteParam (a.processRestore c)).save = t.save.composeOverwriteParam c := by
  refine ext_getFnForReg fun r => ?_
  rw [getFnForReg_composeOverwriteParam, getFnForReg_save, getFnForReg_save]
  rcases hs : saveSource r with _ | r'
  · simp
  · simp [saveSource_eq_some_iff.mp hs]

/-- A window that passes every `%l` and `%i` register. -/
def PassesIsAndLs (w : Window) : Prop :=
  ∀ r, restoreSource r = none → w.getFnForReg r = .pass

/-- A window that passes every register of a set. -/
def PassesSet (w : Window) (regs : SparcRegSet) : Prop :=
  ∀ r, regs.mem r = true → w.getFnForReg r = .pass

/-- `c.Absorbs a`: work done on `a` before `c` was restored from it is already part
of `c`. -/
def Absorbs (c a : Window) : Prop := c.composeOverwriteParam a.save = c

theorem Absorbs.save (a : Window) : a.save.Absorbs a := by
  refine ext_getFnForReg fun r => ?_
  simp

theorem compose_assoc (w t x : Window) : (w.composeOverwriteParam t).composeOverwriteParam x =
      w.composeOverwriteParam (t.composeOverwriteParam x) := by
  refine ext_getFnForReg fun r => ?_
  simp [comp_assoc]

theorem pass_compose (x : Window) : (ofBools true false).composeOverwriteParam x = x :=
  ext_getFnForReg fun r => by simp

theorem Absorbs.comp {c a : Window} (h : c.Absorbs a) (w : Window) :
    (w.composeOverwriteParam c).Absorbs a := by
  rw [Absorbs, compose_assoc, h]

/-- What `Absorbs` says at a register that a restore takes from the window above. -/
theorem Absorbs.comp_eq {c a : Window} (h : c.Absorbs a) {r r' : SparcReg}
    (hr : restoreSource r = some r') :
    (c.getFnForReg r').comp (a.getFnForReg r) = c.getFnForReg r' := by
  have h' := congrArg (getFnForReg · r') h
  simpa [saveSource_eq_some_iff.mpr hr] using h'

/-- Absorption survives the return to a lower window. -/
theorem Absorbs.processRestore {d c a : Window} (hd : d.Absorbs c) (hc : c.Absorbs a) :
    (c.processRestore d).Absorbs a := by
  refine ext_getFnForReg fun r => ?_
  have hcr : (c.getFnForReg r).comp (a.save.getFnForReg r) = c.getFnForReg r := by
    simpa using congrArg (getFnForReg · r) hc
  rw [getFnForReg_composeOverwriteParam, getFnForReg_processRestore]
  rcases hs : restoreSource r with _ | r'
  · exact hcr
  · -- the bit comes from `d`, which has absorbed that of `c`, and that of `a` with it
    change (d.getFnForReg r').comp (a.save.getFnForReg r) = d.getFnForReg r'
    rw [← hd.comp_eq hs, comp_assoc, hcr]

/-- Composing below a window that absorbs, saving and returning: the work below is
done once. -/
theorem processRestore_compose {c a : Window} (h : c.Absorbs a) (x : Window) :
    (a.composeOverwriteParam x).processRestore
        (c.composeOverwriteParam (a.composeOverwriteParam x).save) =
      (a.processRestore c).composeOverwriteParam x := by
  refine ext_getFnForReg fun r => ?_
  rw [getFnForReg_composeOverwriteParam, getFnForReg_processRestore, getFnForReg_processRestore]
  rcases hs : restoreSource r with _ | r'
  · simp
  · simp only [getFnForReg_composeOverwriteParam, getFnForReg_save, saveSource_eq_some_iff.mpr hs]
    rw [← comp_assoc, h.comp_eq hs]

/-- Returning to a window that passes its `%l`s and `%i`s is returning to a fresh
one. -/
theorem PassesIsAndLs.processRestore_eq {w : Window} (h : w.PassesIsAndLs) (prev : Window) :
    w.processRestore prev = (ofBools true false).processRestore prev := by
  refine ext_getFnForReg fun r => ?_
  rw [getFnForReg_processRestore, getFnForReg_processRestore]
  rcases hs : restoreSource r with _ | r'
  · simpa using h r hs
  · rfl

/-- A start made after a function is a start made after its composition. -/
theorem startSet_compose (t x : Window) (set : SparcRegSet) :
    (t.startSet set).composeOverwriteParam x = (t.composeOverwriteParam x).startSet set := by
  refine ext_getFnForReg fun r => ?_
  simp only [getFnForReg_composeOverwriteParam, getFnForReg_startSet]
  split <;> simp

theorem stopSet_compose (t x : Window) (set : SparcRegSet) :
    (t.stopSet set).composeOverwriteParam x = (t.composeOverwriteParam x).stopSet set := by
  refine ext_getFnForReg fun r => ?_
  simp only [getFnForReg_composeOverwriteParam, getFnForReg_stopSet]
  split <;> simp

/-- A pass made after a function is one made after its composition with a window that passes
these registers already. -/
theorem passSet_compose (t : Window) {x : Window} {regs : SparcRegSet} (h : x.PassesSet regs) :
    (t.passSet regs).composeOverwriteParam x = (t.composeOverwriteParam x).passSet regs := by
  refine ext_getFnForReg fun r => ?_
  simp only [getFnForReg_composeOverwriteParam, getFnForReg_passSet]
  split
  · rw [pass_comp, h r ‹_›]
  · rfl

/-- If a saved composition passes a register, so did the work that was done last. -/
theorem PassesSet.of_save_compose {a x : Window} {regs : SparcRegSet}
    (h : (a.composeOverwriteParam x).save.PassesSet regs) : a.save.PassesSet regs := by
  intro r hr
  have h' := h r hr
  rw [getFnForReg_save] at h' ⊢
  cases hs : saveSource r with
  | none =>
    rw [hs] at h'
    exact h'
  | some r' =>
    simp only [hs, getFnForReg_composeOverwriteParam] at h' ⊢
    exact eq_pass_of_comp h'

theorem Absorbs.passSet {c a : Window} (h : c.Absorbs a) {regs : SparcRegSet}
    (hs : a.save.PassesSet regs) : (c.passSet regs).Absorbs a := by
  rw [Absorbs, passSet_compose c hs, h]

/-- Composing with the return to a manufactured window is returning with the
composition. -/
theorem pass_processRestore_compose (t b x : Window) :
    ((ofBools true false).processRestore t).composeOverwriteParam (b.processRestore x) =
      b.processRestore (t.composeOverwriteParam x) := by
  refine ext_getFnForReg fun r => ?_
  simp only [getFnForReg_composeOverwriteParam, getFnForReg_processRestore, getFnForReg_pass]
  cases restoreSource r <;> simp

/-- A return only reads the `%l`s and `%i`s of the window it returns to. -/
theorem processRestore_congr {w w' : Window} (h : w.equalIsAndLs w' = true) (prev : Window) :
    w.processRestore prev = w'.processRestore prev := by
  refine ext_getFnForReg fun r => ?_
  simp only [getFnForReg_processRestore]
  rcases hs : restoreSource r with _ | r'
  · exact equalIsAndLs_iff.mp h r hs
  · rfl

theorem equalIsAndLs_refl (w : Window) : w.equalIsAndLs w = true :=
  equalIsAndLs_iff.mpr fun _ _ => rfl

theorem equalIsAndLs_comm (w w' : Window) : w.equalIsAndLs w' = w'.equalIsAndLs w := by
  rw [Bool.eq_iff_iff, equalIsAndLs_iff, equalIsAndLs_iff]
  exact forall₂_congr fun _ _ => eq_comm

theorem equalIsAndLs_trans {w₁ w₂ w₃ : Window} (h : w₁.equalIsAndLs w₂ = true)
    (h' : w₂.equalIsAndLs w₃ = true) : w₁.equalIsAndLs w₃ = true :=
  equalIsAndLs_iff.mpr fun r hr =>
    (equalIsAndLs_iff.mp h r hr).trans (equalIsAndLs_iff.mp h' r hr)

end Window

end Kerninst
