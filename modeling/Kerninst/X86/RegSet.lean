import Mathlib.Data.Fintype.Basic

/-!
# Sets of x86 registers

`X86RegSet` is the class `x86_reg_set`, with one bit for each integer register: `AL`–`BL` are 0–3,
`AH`–`BH` 4–7, `AX`–`BX` 8–11, `SP`–`DI` 12–15, their 32-bit forms 16–23 and the segment registers
24–29. Two bits of the word are unused. The complement sets them all the same, so **no set and its
complement make up the full set**. Difference closes both sides under overlap before it compares
them, intersection and `exists` do not: they agree on sets that are `Saturated`.
-/

namespace Kerninst

/-- A register; `other` is the null register or a control or debug register. -/
inductive X86Reg
  | int (num : Fin 30)
  | pc | eflags | fp | other
deriving DecidableEq

namespace X86Reg

/-- The bytes of an integer register: the largest register it is part of, its first byte in it and
the one after its last. -/
def bytes (num : Nat) : Nat × Nat × Nat :=
  if num < 4 then (num, 0, 1)
  else if num < 8 then (num - 4, 1, 2)
  else if num < 16 then (num - 8, 0, 2)
  else if num < 24 then (num - 16, 0, 4)
  else (num - 16, 0, 2)

/-- They have a byte in common. -/
def Overlaps : X86Reg → X86Reg → Prop
  | int i, int j => (bytes i).1 = (bytes j).1 ∧
      (bytes i).2.1 < (bytes j).2.2 ∧ (bytes j).2.1 < (bytes i).2.2
  | r, r' => r = r'

end X86Reg

/-- The padding of `misc_stuff` is always zero, so that only its upper three bits are kept: `pc`,
`eflags` and `fp`. -/
@[ext] structure X86RegSet where
  intBits : BitVec 32
  floatBits : BitVec 64
  ms : BitVec 3
deriving DecidableEq

namespace X86RegSet

/-- The bits in use. -/
def fullIntRegMask : BitVec 32 := 0x3fffffff

/-- A 32-bit register brings its parts along. -/
def correctIntRegMask (mask : BitVec 32) : BitVec 32 :=
  let mask := mask &&& fullIntRegMask
  let exs := (mask >>> 16) &&& 0xf
  -- entry `exs` of the table `puff` repeats its four bits three times
  let mask := mask ||| exs * 0x111
  mask ||| ((mask >>> 8) &&& 0xf000)

/-- A part of a register brings the register along. -/
def promoteIntRegMask (mask : BitVec 32) : BitVec 32 :=
  let mask := mask ||| (mask &&& 0xf0) <<< 4
  let mask := mask ||| (mask &&& 0xf) <<< 8
  mask ||| (mask &&& 0xff00) <<< 8

/-- The bit of a register. -/
def singleIntRegMask (i : Fin 30) : BitVec 32 := 1 <<< i.val

/-- Both masks are closed under overlap. -/
def diffIntRegMasks (a b : BitVec 32) : BitVec 32 :=
  correctIntRegMask (promoteIntRegMask a) &&& ~~~correctIntRegMask (promoteIntRegMask b)

/-- `emptyset` -/
def emptyset : X86RegSet := ⟨0, 0, 0⟩

/-- `fullset` -/
def fullset : X86RegSet := ⟨fullIntRegMask, BitVec.allOnes 64, BitVec.allOnes 3⟩

/-- `SingleIntReg`, without what overlaps it. -/
def singleIntReg (i : Fin 30) : X86RegSet := ⟨singleIntRegMask i, 0, 0⟩

/-- The set of one register. `isFloatReg` is true of `fp`, and then an assertion fails. -/
def ofReg : X86Reg → Option X86RegSet
  | .int i => some ⟨correctIntRegMask (promoteIntRegMask (singleIntRegMask i)), 0, 0⟩
  | .pc => some ⟨0, 0, 1⟩
  | .eflags => some ⟨0, 0, 2⟩
  | .fp => none
  | .other => some emptyset

instance : OrOp X86RegSet where
  or s t := ⟨s.intBits ||| t.intBits, s.floatBits ||| t.floatBits, s.ms ||| t.ms⟩

instance : AndOp X86RegSet where
  and s t := ⟨s.intBits &&& t.intBits, s.floatBits &&& t.floatBits, s.ms &&& t.ms⟩

instance : Complement X86RegSet where
  complement s := ⟨~~~s.intBits, ~~~s.floatBits, ~~~s.ms⟩

/-- Set difference, `operator-=`. -/
instance : Sub X86RegSet where
  sub s t := ⟨diffIntRegMasks s.intBits t.intBits, s.floatBits &&& ~~~t.floatBits, s.ms &&& ~~~t.ms⟩

/-- `isempty` -/
def isempty (s : X86RegSet) : Bool := s.intBits = 0 && s.floatBits = 0 && s.ms = 0

/-- Is the register in the set? -/
def existsReg (s : X86RegSet) : X86Reg → Option Bool
  | .int i => some (s.intBits &&& singleIntRegMask i ≠ 0)
  | .pc => some (s.ms.getLsbD 0)
  | .eflags => some (s.ms.getLsbD 1)
  | .fp | .other => none

/-- Is `subset` a subset of `s`? -/
def existsSet (s subset : X86RegSet) : Bool :=
  subset.floatBits &&& ~~~s.floatBits = 0 &&
    subset.intBits &&& ~~~promoteIntRegMask s.intBits = 0 && subset.ms &&& ~~~s.ms = 0

/-- With a register the set has all that overlap it, and the unused bits are clear. -/
def Saturated (s : X86RegSet) : Prop :=
  promoteIntRegMask s.intBits = s.intBits ∧ correctIntRegMask s.intBits = s.intBits

@[simp] theorem intBits_sub (s t : X86RegSet) :
    (s - t).intBits = diffIntRegMasks s.intBits t.intBits := rfl

@[simp] theorem ms_sub (s t : X86RegSet) : (s - t).ms = s.ms &&& ~~~t.ms := rfl

theorem sub_eq {s t : X86RegSet} (hs : s.Saturated) (ht : t.Saturated) : s - t = s &&& ~~~t := by
  ext1
  · rw [intBits_sub, diffIntRegMasks, hs.1, hs.2, ht.1, ht.2]
    rfl
  all_goals rfl

theorem promoteIntRegMask_or (a b : BitVec 32) :
    promoteIntRegMask (a ||| b) = promoteIntRegMask a ||| promoteIntRegMask b := by
  simp only [promoteIntRegMask, BitVec.and_or_distrib_right, BitVec.shiftLeft_or_distrib]
  ac_rfl

/-- The table `puff`. -/
theorem puff_or (x y : BitVec 32) : (x &&& 0xf ||| y &&& 0xf) * 0x111 =
    (x &&& 0xf) * 0x111 ||| (y &&& 0xf) * 0x111 := by
  have hall : ∀ x y : Fin 16, (BitVec.ofNat 32 x ||| BitVec.ofNat 32 y) * 0x111#32 =
      BitVec.ofNat 32 x * 0x111#32 ||| BitVec.ofNat 32 y * 0x111#32 := by decide +kernel
  have hlow : ∀ x : BitVec 32, ∃ i : Fin 16, x &&& 0xf = BitVec.ofNat 32 i := by
    intro x
    have hlt : (x &&& 0xf).toNat < 16 := Nat.lt_succ_of_le Nat.and_le_right
    exact ⟨⟨_, hlt⟩, (BitVec.ofNat_toNat 32 _).symm ▸ (BitVec.setWidth_eq _).symm⟩
  obtain ⟨i, hi⟩ := hlow x
  obtain ⟨j, hj⟩ := hlow y
  rw [hi, hj]
  exact hall i j

theorem correctIntRegMask_or (a b : BitVec 32) :
    correctIntRegMask (a ||| b) = correctIntRegMask a ||| correctIntRegMask b := by
  simp only [correctIntRegMask, BitVec.and_or_distrib_right, BitVec.ushiftRight_or_distrib, puff_or]
  ac_rfl

/-- Sets of one register are saturated, and so are their unions. -/
theorem saturated_of_ofReg {r : X86Reg} {s : X86RegSet} (h : ofReg r = some s) : s.Saturated := by
  have hall : ∀ i : Fin 30, Saturated ⟨correctIntRegMask (promoteIntRegMask (singleIntRegMask i)),
      0, 0⟩ := by
    unfold Saturated
    decide +kernel
  cases r with
  | int i =>
    obtain rfl := Option.some.inj h
    exact hall i
  | fp => cases h
  | _ =>
    obtain rfl := Option.some.inj h
    exact ⟨rfl, rfl⟩

theorem Saturated.or {s t : X86RegSet} (hs : s.Saturated) (ht : t.Saturated) :
    (s ||| t).Saturated :=
  ⟨(promoteIntRegMask_or ..).trans (by rw [hs.1, ht.1]; rfl),
    (correctIntRegMask_or ..).trans (by rw [hs.2, ht.2]; rfl)⟩

/-- The set of one register has every register that overlaps it. -/
theorem diffIntRegMasks_single {i j : Fin 30} (h : X86Reg.Overlaps (.int i) (.int j))
    (a : BitVec 32) : diffIntRegMasks a (correctIntRegMask (promoteIntRegMask (singleIntRegMask i)))
      &&& singleIntRegMask j = 0 := by
  have hall : ∀ i j : Fin 30, (X86Reg.bytes i).1 = (X86Reg.bytes j).1 →
      ~~~correctIntRegMask (promoteIntRegMask (correctIntRegMask (promoteIntRegMask
        (singleIntRegMask i)))) &&& singleIntRegMask j = 0 := by
    decide +kernel
  rw [diffIntRegMasks, BitVec.and_assoc, hall i j h.1]
  exact BitVec.and_zero

theorem not_existsReg_sub (s : X86RegSet) {q : X86RegSet} {r r' : X86Reg} (hq : ofReg r = some q)
    (h : r.Overlaps r') : (s - q).existsReg r' ≠ some true := by
  cases r with
  | int i =>
    cases r' with
    | int j =>
      obtain rfl := Option.some.inj hq
      simp [existsReg, diffIntRegMasks_single h]
    | _ => cases h
  | _ =>
    cases h
    cases hq <;> simp [existsReg]

/-- The union law never holds; a set and its complement are always disjoint, and removing a register
always removes what overlaps it. The other two laws hold of saturated sets. -/
theorem laws_of_saturated (s t : X86RegSet) (r : X86Reg) :
    s ||| ~~~s ≠ fullset ∧ (s &&& ~~~s).isempty ∧
      (s.Saturated → t.Saturated → s - t = s &&& ~~~t ∧ (s.existsSet t ↔ (t - s).isempty)) ∧
      ∀ q r', ofReg r = some q → r.Overlaps r' → (s - q).existsReg r' ≠ some true := by
  refine ⟨fun h => ?_, ?_, fun hs ht => ⟨sub_eq hs ht, ?_⟩, fun q r' => not_existsReg_sub s⟩
  · have hint : s.intBits ||| ~~~s.intBits = fullIntRegMask := congrArg intBits h
    simp [fullIntRegMask] at hint
  · show isempty ⟨s.intBits &&& ~~~s.intBits, s.floatBits &&& ~~~s.floatBits, s.ms &&& ~~~s.ms⟩
    simp [isempty]
  · rw [sub_eq ht hs, existsSet, hs.1]
    show _ ↔ isempty ⟨t.intBits &&& ~~~s.intBits, t.floatBits &&& ~~~s.floatBits, t.ms &&& ~~~s.ms⟩
    simpa [isempty] using fun _ => and_comm

theorem not_laws : emptyset ||| ~~~emptyset ≠ fullset ∧
    singleIntReg 0 - emptyset ≠ singleIntReg 0 &&& ~~~emptyset ∧
      (singleIntReg 16).existsSet (singleIntReg 0) = false ∧
        (singleIntReg 0 - singleIntReg 16).isempty := by
  decide

end X86RegSet

end Kerninst
