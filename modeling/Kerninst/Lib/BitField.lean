import Mathlib.Tactic.Ring
import Mathlib.Tactic.Positivity
import Kerninst.Lib.Checked

/-!
# Words built and read field by field

A fixed-width word is built by shifting what is there to the left and or-ing the
next field in; it is read back by shifting and masking.

A word whose fields take at most 32 bits is the number one expects
(`rollAll_eq`): each step multiplies by a power of two and adds. So every field is
found again at its place (`Spells.get`). A replaced field reads back as what was put
there (`field_replaceField`), and whatever lies beside it stays
(`field_replaceField_of_disjoint`).
-/

namespace Kerninst

open List
open Prod (fst)
open BitVec (eq_of_toNat_eq toNat_ofNat ofNat)

abbrev Word := BitVec 32

/-- Shift the word left by the width of a field, and or the field in. -/
def rollin (raw : Word) (f : Nat × Nat) : Word := raw <<< f.1 ||| BitVec.ofNat 32 f.2

/-- A word from its fields, the highest first, each a width and a value. -/
def rollAll (fs : List (Nat × Nat)) : Option Word :=
  (check (∀ f ∈ fs, f.2 < 2 ^ f.1)).bind fun _ => some (fs.foldl rollin 0)

/-- The number that a list of fields spells. -/
def fieldsValue (fs : List (Nat × Nat)) : Nat := fs.foldl (fun a f => a * 2 ^ f.1 + f.2) 0

/-- The `n` bits from bit `lo` on, as a number. -/
def field (w : Word) (lo n : Nat) : Nat := w.toNat / 2 ^ lo % 2 ^ n

theorem rollin_ofNat {a n v : Nat} (hv : v < 2 ^ n) (ha : a * 2 ^ n + v < 2 ^ 32) :
    rollin (BitVec.ofNat 32 a) (n, v) = BitVec.ofNat 32 (a * 2 ^ n + v) := by
  have hpow : 0 < 2 ^ n := Nat.two_pow_pos n
  have hlt : a * 2 ^ n < 2 ^ 32 := by omega
  have ha' : a < 2 ^ 32 := lt_of_le_of_lt (Nat.le_mul_of_pos_right a hpow) hlt
  apply eq_of_toNat_eq
  simp only [rollin, BitVec.toNat_or, BitVec.toNat_shiftLeft, toNat_ofNat,
    Nat.shiftLeft_eq, Nat.mod_eq_of_lt ha', Nat.mod_eq_of_lt hlt, Nat.mod_eq_of_lt ha,
    Nat.mod_eq_of_lt (show v < 2 ^ 32 by omega)]
  rw [Nat.mul_comm a, Nat.two_pow_add_eq_or_of_lt hv]

/-- A number of `k` bits with `n` more bits appended. -/
theorem mul_two_pow_add_lt {a v k n : Nat} (ha : a < 2 ^ k) (hv : v < 2 ^ n) :
    a * 2 ^ n + v < 2 ^ (k + n) := by
  have hmul : (a + 1) * 2 ^ n ≤ 2 ^ k * 2 ^ n := Nat.mul_le_mul_right _ ha
  rw [pow_add]
  rw [Nat.add_mul] at hmul
  omega

variable {fs : List (Nat × Nat)}

/-- Rolling fields into a word that leaves room for them. -/
theorem foldl_rollin (hfs : ∀ f ∈ fs, f.2 < 2 ^ f.1) {a k : Nat}
    (ha : a < 2 ^ k) (hk : k + (fs.map fst).sum ≤ 32) :
    fs.foldl rollin (BitVec.ofNat 32 a) =
      BitVec.ofNat 32 (fs.foldl (fun a f => a * 2 ^ f.1 + f.2) a) := by
  induction fs generalizing a k with
  | nil => rfl
  | cons f fs ih =>
    have hf : f.2 < 2 ^ f.1 := hfs f (by simp)
    simp only [map_cons, sum_cons] at hk
    -- the word with the new field still fits, in `k + f.1` bits
    have hnext : a * 2 ^ f.1 + f.2 < 2 ^ (k + f.1) := mul_two_pow_add_lt ha hf
    have hword : 2 ^ (k + f.1) ≤ 2 ^ 32 := Nat.pow_le_pow_right (by decide) (by omega)
    have hstep : rollin (ofNat 32 a) f = ofNat 32 (a * 2 ^ f.1 + f.2) :=
      rollin_ofNat hf (lt_of_lt_of_le hnext hword)
    rw [foldl_cons, foldl_cons, hstep]
    exact ih (fun g hg => hfs g (by simp [hg])) hnext (by omega)

/-- **A word is the number its fields spell**, when they fit it. -/
theorem rollAll_eq (hfs : ∀ f ∈ fs, f.2 < 2 ^ f.1) (hsum : (fs.map fst).sum ≤ 32) :
    rollAll fs = some (BitVec.ofNat 32 (fieldsValue fs)) := by
  have h : fs.foldl rollin (ofNat 32 0) = ofNat 32 (fieldsValue fs) :=
    foldl_rollin hfs (k := 0) (by decide) (by omega)
  rw [rollAll, check_pos hfs, Option.bind_some, ← h]
  rfl

/-! ## Reading fields back -/

theorem fieldsValue_append (fs gs : List (Nat × Nat)) :
    fieldsValue (fs ++ gs) = fieldsValue fs * 2 ^ (gs.map fst).sum + fieldsValue gs := by
  induction gs using reverseRecOn with
  | nil => simp [fieldsValue]
  | append_singleton gs g ih =>
    simp only [fieldsValue, ← append_assoc, foldl_concat] at ih ⊢
    rw [ih]
    simp only [map_append, map_cons, map_nil, sum_append, sum_cons, sum_nil, Nat.add_zero, pow_add]
    ring

theorem fieldsValue_lt (hfs : ∀ f ∈ fs, f.2 < 2 ^ f.1) :
    fieldsValue fs < 2 ^ (fs.map fst).sum := by
  induction fs with
  | nil => simp [fieldsValue]
  | cons f fs ih =>
    have hf : f.2 < 2 ^ f.1 := hfs f (by simp)
    have hrest := ih fun g hg => hfs g (by simp [hg])
    have hsplit : fieldsValue (f :: fs) = f.2 * 2 ^ (fs.map fst).sum + fieldsValue fs := by
      rw [← singleton_append, fieldsValue_append]
      simp [fieldsValue]
    rw [map_cons, sum_cons, hsplit]
    exact mul_two_pow_add_lt hf hrest

/-- A word that a list of fields spells. -/
structure Spells (w : Word) (fs : List (Nat × Nat)) : Prop where
  fit : ∀ f ∈ fs, f.2 < 2 ^ f.1
  width : (fs.map Prod.fst).sum ≤ 32
  eq : w = BitVec.ofNat 32 (fieldsValue fs)

theorem spells_of_rollAll {w : Word} (hwidth : (fs.map fst).sum ≤ 32)
    (h : rollAll fs = some w) : Spells w fs := by
  obtain ⟨_, hfit, -⟩ := exists_of_bind h
  rw [check_eq_some] at hfit
  exact ⟨hfit, hwidth, Option.some.inj (h.symm.trans (rollAll_eq hfit hwidth))⟩

/-- **Fields that fit make a word.** What holds of every word that they spell holds of it. -/
theorem rollAll_spec {P : Word → Prop} (hfit : ∀ f ∈ fs, f.2 < 2 ^ f.1)
    (hwidth : (fs.map fst).sum ≤ 32) (h : ∀ w, Spells w fs → P w) :
    ∃ w, rollAll fs = some w ∧ P w :=
  ⟨_, rollAll_eq hfit hwidth, h _ ⟨hfit, hwidth, rfl⟩⟩

/-- **A field is found where it was rolled in**: at the bit where the fields after it end. -/
theorem Spells.get {w : Word} (h : Spells w fs) (i : Nat) {n v : Nat} (hi : fs[i]? = some (n, v)) :
    field w ((fs.drop (i + 1)).map fst).sum n = v := by
  set post := fs.drop (i + 1) with hpost
  obtain ⟨hlt, hget⟩ := List.getElem?_eq_some_iff.mp hi
  have hfs : fs = fs.take i ++ (n, v) :: post := by
    rw [hpost, ← hget, List.getElem_cons_drop, List.take_append_drop]
  have hv : v < 2 ^ n := h.fit (n, v) (List.mem_of_getElem? hi)
  have hlow : fieldsValue post < 2 ^ (post.map fst).sum :=
    fieldsValue_lt fun g hg => h.fit g (List.mem_of_mem_drop hg)
  have hword : fieldsValue fs < 2 ^ 32 :=
    lt_of_lt_of_le (fieldsValue_lt h.fit) (Nat.pow_le_pow_right (by decide) h.width)
  -- what is above the field is a multiple of its size, what is below is cut off
  have hhead : fieldsValue (fs.take i ++ [(n, v)]) = fieldsValue (fs.take i) * 2 ^ n + v := by
    simp [fieldsValue]
  have hsplit : fieldsValue fs =
      fieldsValue (fs.take i ++ [(n, v)]) * 2 ^ (post.map fst).sum + fieldsValue post := by
    rw [← fieldsValue_append, List.append_assoc, List.singleton_append, ← hfs]
  rw [h.eq, field, toNat_ofNat, Nat.mod_eq_of_lt hword, hsplit, hhead,
    Nat.mul_comm _ (2 ^ (post.map fst).sum), Nat.mul_add_div (Nat.two_pow_pos _),
    Nat.div_eq_of_lt hlow, Nat.add_zero, Nat.add_comm, Nat.add_mul_mod_self_right,
    Nat.mod_eq_of_lt hv]

/-- The low bits of a field. -/
theorem field_mod (w : Word) (lo : Nat) {n m : Nat} (h : n ≤ m) :
    field w lo n = field w lo m % 2 ^ n := by
  rw [field, field, Nat.mod_mod_of_dvd _ (pow_dvd_pow 2 h)]

theorem field_lt (w : Word) (lo n : Nat) : field w lo n < 2 ^ n :=
  Nat.mod_lt _ (Nat.two_pow_pos n)

/-- The highest bit of a field. -/
theorem field_succ (w : Word) (lo n : Nat) : field w (lo + n) 1 = field w lo (n + 1) / 2 ^ n := by
  rw [field, field, pow_add 2 lo, ← Nat.div_div_eq_div_mul, pow_succ 2 n,
    Nat.mod_mul_right_div_self, pow_one]

/-- A signed number cut to `n` bits reads back as itself when it fits them. -/
theorem bmod_emod_toNat {n : Nat} {v : Int} (hlo : -(2 ^ n : Int) ≤ v) (hhi : v < 2 ^ n) :
    (((v % 2 ^ (n + 1)).toNat : Nat) : Int).bmod (2 ^ (n + 1)) = v := by
  have hpos : (0 : Int) < 2 ^ (n + 1) := by positivity
  have hcast : (((v % 2 ^ (n + 1)).toNat : Nat) : Int) = v % ((2 ^ (n + 1) : Nat) : Int) := by
    rw [Int.toNat_of_nonneg (Int.emod_nonneg _ hpos.ne')]
    rfl
  have hdouble : ((2 ^ (n + 1) : Nat) : Int) = 2 * 2 ^ n := by
    push_cast
    ring
  rw [hcast, Int.emod_bmod]
  apply Int.bmod_eq_of_le <;> omega

/-! ## Replacing a field -/

/-- The bits `0` to `hibit`. -/
def getBitsFrom0 (value : Word) (hibit : Nat) : Word := value &&& ((1 : Word) <<< (hibit + 1) - 1)

/-- `replaceBits`: save the bits below, clear the old ones by shifting them out, or the
new ones in, and shift back. -/
def replaceBits (value : Word) (lo hi : Nat) (replacement : Word) : Word :=
  let savedLowBits := if lo = 0 then 0 else getBitsFrom0 value (lo - 1)
  let numBits := hi - lo + 1
  ((value >>> lo >>> numBits <<< numBits ||| replacement) <<< lo) ||| savedLowBits

/-- Replacing the bits from `lo` on by a field, given as a width and a value. -/
def replaceField (w : Word) (lo : Nat) (f : Nat × Nat) : Word :=
  replaceBits w lo (lo + f.1 - 1) (BitVec.ofNat 32 f.2)

theorem toNat_getBitsFrom0 (w : Word) {hibit : Nat} (h : hibit < 31) :
    (getBitsFrom0 w hibit).toNat = w.toNat % 2 ^ (hibit + 1) := by
  have hpow : 2 ^ (hibit + 1) ≤ 2 ^ 31 := Nat.pow_le_pow_right (by decide) (by omega)
  have hpos : 0 < 2 ^ (hibit + 1) := Nat.two_pow_pos _
  have hmask : ((1 : Word) <<< (hibit + 1) - 1).toNat = 2 ^ (hibit + 1) - 1 := by
    rw [BitVec.toNat_sub_of_le] <;> simp [BitVec.le_def, Nat.shiftLeft_eq] <;> omega
  rw [getBitsFrom0, BitVec.toNat_and, hmask, Nat.and_two_pow_sub_one_eq_mod]

section Replacing

variable (w : Word) {lo n v : Nat}

/-- **What replacing a field computes**: the bits above, the new field and the bits below. -/
theorem toNat_replaceField (hn : 0 < n) (hfit : lo + n ≤ 32) (hv : v < 2 ^ n) :
    (replaceField w lo (n, v)).toNat =
      (w.toNat / 2 ^ (lo + n) * 2 ^ n + v) * 2 ^ lo + w.toNat % 2 ^ lo := by
  have hlow : w.toNat % 2 ^ lo < 2 ^ lo := Nat.mod_lt _ (Nat.two_pow_pos lo)
  have hsaved : (if lo = 0 then 0 else getBitsFrom0 w (lo - 1)) = ofNat 32 (w.toNat % 2 ^ lo) := by
    by_cases h0 : lo = 0
    · simp [h0, Nat.mod_one]
    · apply eq_of_toNat_eq
      rw [if_neg h0, toNat_getBitsFrom0 w (by omega), Nat.sub_add_cancel (by omega),
        toNat_ofNat, Nat.mod_eq_of_lt ((Nat.mod_le _ _).trans_lt w.isLt)]
  have hhigh : w >>> lo >>> n = ofNat 32 (w.toNat / 2 ^ (lo + n)) := by
    apply eq_of_toNat_eq
    rw [BitVec.toNat_ushiftRight, BitVec.toNat_ushiftRight, Nat.shiftRight_eq_div_pow,
      Nat.shiftRight_eq_div_pow, Nat.div_div_eq_div_mul, ← pow_add, toNat_ofNat,
      Nat.mod_eq_of_lt ((Nat.div_le_self _ _).trans_lt w.isLt)]
  -- the two steps that put the pieces together are two steps of `rollin`
  have hroll : replaceField w lo (n, v) =
      rollin (rollin (ofNat 32 (w.toNat / 2 ^ (lo + n))) (n, v)) (lo, w.toNat % 2 ^ lo) := by
    simp only [replaceField, replaceBits, hsaved, show lo + n - 1 - lo + 1 = n by omega, hhigh,
      rollin]
  have hword : (w.toNat / 2 ^ (lo + n) * 2 ^ n + v) * 2 ^ lo + w.toNat % 2 ^ lo < 2 ^ 32 := by
    have htop : w.toNat / 2 ^ (lo + n) < 2 ^ (32 - (lo + n)) := by
      rw [Nat.div_lt_iff_lt_mul (Nat.two_pow_pos _), ← pow_add, Nat.sub_add_cancel hfit]
      exact w.isLt
    have hbits := mul_two_pow_add_lt (mul_two_pow_add_lt htop hv) hlow
    rwa [show 32 - (lo + n) + n + lo = 32 by omega] at hbits
  have hfirst : w.toNat / 2 ^ (lo + n) * 2 ^ n + v < 2 ^ 32 := by
    have := Nat.le_mul_of_pos_right (w.toNat / 2 ^ (lo + n) * 2 ^ n + v) (Nat.two_pow_pos lo)
    omega
  rw [hroll, rollin_ofNat hv hfirst, rollin_ofNat hlow hword, toNat_ofNat, Nat.mod_eq_of_lt hword]

/-- The new field is there. -/
theorem field_replaceField (hn : 0 < n) (hfit : lo + n ≤ 32) (hv : v < 2 ^ n) :
    field (replaceField w lo (n, v)) lo n = v := by
  rw [field, toNat_replaceField w hn hfit hv, Nat.mul_comm _ (2 ^ lo),
    Nat.mul_add_div (Nat.two_pow_pos lo), Nat.div_eq_of_lt (Nat.mod_lt _ (Nat.two_pow_pos lo)),
    Nat.add_zero, Nat.mul_add_mod_of_lt hv]

/-- The fields above stay. -/
theorem field_replaceField_of_ge (hn : 0 < n) (hfit : lo + n ≤ 32) (hv : v < 2 ^ n) {lo' : Nat}
    (h : lo + n ≤ lo') (m : Nat) : field (replaceField w lo (n, v)) lo' m = field w lo' m := by
  have htop : (replaceField w lo (n, v)).toNat / 2 ^ (lo + n) = w.toNat / 2 ^ (lo + n) := by
    have hlow := mul_two_pow_add_lt hv (Nat.mod_lt w.toNat (Nat.two_pow_pos lo))
    rw [Nat.add_comm n lo] at hlow
    have hsplit : (w.toNat / 2 ^ (lo + n) * 2 ^ n + v) * 2 ^ lo + w.toNat % 2 ^ lo =
        2 ^ (lo + n) * (w.toNat / 2 ^ (lo + n)) + (v * 2 ^ lo + w.toNat % 2 ^ lo) := by ring
    rw [toNat_replaceField w hn hfit hv, hsplit, Nat.mul_add_div (Nat.two_pow_pos _),
      Nat.div_eq_of_lt hlow, Nat.add_zero]
  obtain ⟨k, rfl⟩ := Nat.exists_eq_add_of_le h
  rw [field, field, pow_add 2 (lo + n), ← Nat.div_div_eq_div_mul, ← Nat.div_div_eq_div_mul, htop]

/-- The fields below stay. -/
theorem field_replaceField_of_le (hn : 0 < n) (hfit : lo + n ≤ 32) (hv : v < 2 ^ n) {lo' m : Nat}
    (h : lo' + m ≤ lo) : field (replaceField w lo (n, v)) lo' m = field w lo' m := by
  have hlow : (replaceField w lo (n, v)).toNat % 2 ^ lo = w.toNat % 2 ^ lo := by
    rw [toNat_replaceField w hn hfit hv, Nat.mul_add_mod_self_right, Nat.mod_mod]
  have hfield : ∀ x : Word, field x lo' m = x.toNat % 2 ^ lo % 2 ^ (lo' + m) / 2 ^ lo' := by
    intro x
    rw [field, Nat.mod_mod_of_dvd _ (pow_dvd_pow 2 h), pow_add, Nat.mod_mul_right_div_self]
  rw [hfield, hfield, hlow]

theorem field_replaceField_of_disjoint (hn : 0 < n) (hfit : lo + n ≤ 32) (hv : v < 2 ^ n)
    {lo' m : Nat} (h : lo' + m ≤ lo ∨ lo + n ≤ lo') :
    field (replaceField w lo (n, v)) lo' m = field w lo' m := by
  rcases h with hbelow | habove
  · exact field_replaceField_of_le w hn hfit hv hbelow
  · exact field_replaceField_of_ge w hn hfit hv habove m

end Replacing

end Kerninst
