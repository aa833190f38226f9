import Mathlib.Logic.Basic

/-!
# Monotone functions on one bit

The monotone functions on a bit are *pass* (the identity), *start* (constantly
true) and *stop* (constantly false). `BitFn` writes them as pairs of bits, as a
bitwise data-flow framework stores them: `f x = (x && thru) || gen`. A set-valued
data-flow function is one `BitFn` per register, and its composition is the
composition of its bits.
-/

namespace Kerninst

/-- The function `x ↦ (x && thru) || gen` on a bit. -/
@[ext] structure BitFn where
  thru : Bool
  gen : Bool
deriving DecidableEq

namespace BitFn

def pass : BitFn := ⟨true, false⟩
def start : BitFn := ⟨false, true⟩
def stop : BitFn := ⟨false, false⟩

/-- `f.comp g` does `g` first and then `f`. -/
def comp (f g : BitFn) : BitFn := ⟨f.thru && g.thru, (g.gen && f.thru) || f.gen⟩

@[simp] theorem pass_comp (f : BitFn) : pass.comp f = f := by
  cases f
  simp [pass, comp]

/-- A constant function forgets what was done before it. -/
@[simp] theorem stop_comp (f : BitFn) : stop.comp f = stop := by
  simp [stop, comp]

@[simp] theorem start_comp (f : BitFn) : start.comp f = start := by
  simp [start, comp]

theorem comp_assoc (f g h : BitFn) : (f.comp g).comp h = f.comp (g.comp h) := by
  obtain ⟨ft, fg⟩ := f
  obtain ⟨gt, gg⟩ := g
  cases ft <;> cases gt <;> simp [comp, Bool.or_assoc]

/-- What makes a pass with anything before it is a pass. -/
theorem eq_pass_of_comp {f g : BitFn} (h : f.comp g = pass) : f = pass := by
  obtain ⟨ft, fg⟩ := f
  obtain ⟨gt, gg⟩ := g
  cases ft <;> cases fg <;> simp_all [comp, pass]

/-- Doing a function twice is doing it once. -/
@[simp] theorem comp_self (f : BitFn) : f.comp f = f := by
  obtain ⟨ft, fg⟩ := f
  cases ft <;> cases fg <;> rfl

/-- Doing a function again after it has been done changes nothing. -/
@[simp] theorem comp_comp_self (f g : BitFn) : f.comp (f.comp g) = f.comp g := by
  rw [← comp_assoc, comp_self]

end BitFn

end Kerninst
