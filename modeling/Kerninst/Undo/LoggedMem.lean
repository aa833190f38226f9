import Mathlib.Data.List.AList
import Kerninst.Lib.Undo
import Kerninst.Sparc.Machine

/-!
# The log of the Solaris driver

The driver keeps the original values of the words that the daemon has changed, so that it can put
them back if the daemon dies. They are in two tables: the words in `pri0` are put back first, those
in `pri1` second.

`LoggedWrites.Lists` says what is in the tables in terms of the priority of each word: each
operation of the driver changes the priority of one word. `Lists.undo` is what the log is for.

The tables are hash tables, and the order in which `undo` goes through one of them is left open.
-/

namespace Kerninst.Solaris

open List Function AList

/-- The constructor panics if the address is not aligned. -/
structure OneWrite where
  addr : Kptr
  origval : Word
  maybeInNucleus : Bool
  aligned : addr.toNat % 4 = 0

abbrev Dict := AList fun _ : Kptr => OneWrite

structure LoggedWrites where
  pri0 : Dict
  pri1 : Dict

def write1AlignedWord (memory : Kptr → Word) (inNucleus : Bool) (addr : Kptr) (val : Word) :
    Option (Kptr → Word) := do
  check (inNucleus = true ∨ addr.toNat % 4 = 0)
  pure (Function.update memory addr val)

/-- Put the original value back. -/
def OneWrite.undo (w : OneWrite) (memory : Kptr → Word) : Kptr → Word :=
  Function.update memory w.addr w.origval

def oneWrite (addr : Kptr) (origval : Word) (maybeNucleus : Bool) : Option OneWrite :=
  if h : addr.toNat % 4 = 0 then some ⟨addr, origval, maybeNucleus, h⟩ else none

namespace LoggedWrites

def empty : LoggedWrites := ⟨∅, ∅⟩

/-- Log the original value, unless there is an older one. -/
def record (log : LoggedWrites) (addr : Kptr) (maybeNucleus : Bool) (origval : Word)
    (howSoon : Nat) : Option LoggedWrites :=
  if addr ∈ log.pri0 ∨ addr ∈ log.pri1 then some log
  else
    match howSoon with
    | 0 => do
      let w ← oneWrite addr origval maybeNucleus
      pure { log with pri0 := log.pri0.insert addr w }
    | 1 => do
      let w ← oneWrite addr origval maybeNucleus
      pure { log with pri1 := log.pri1.insert addr w }
    | _ => none

/-- Returns 1 if the value was not logged. -/
def performUndoableAlignedWrite (log : LoggedWrites) (memory : Kptr → Word) (addr : Kptr)
    (maybeNucleus : Bool) (val origval : Word) (howSoon : Nat) :
    Option (LoggedWrites × (Kptr → Word) × Int) := do
  let logged ← log.record addr maybeNucleus origval howSoon
  let memory ← write1AlignedWord memory maybeNucleus addr val
  pure (logged, memory, if addr ∈ log.pri0 ∨ addr ∈ log.pri1 then 1 else 0)

/-- The original value is what is in memory. -/
def write1UndoableAlignedWord (log : LoggedWrites) (memory : Kptr → Word) (addr : Kptr)
    (maybeNucleus : Bool) (val : Word) (howSoon : Nat) :
    Option (LoggedWrites × (Kptr → Word) × Int) := do
  check (addr.toNat % 4 = 0)
  log.performUndoableAlignedWrite memory addr maybeNucleus val (memory addr) howSoon

/-- The value that is put back is the one in the log; another one is only reported. -/
def undoWriteWordCommon (log : LoggedWrites) (memory : Kptr → Word) (addr : Kptr)
    (_oldvalToSetTo : Word) (inNucleus : Bool) : Option (LoggedWrites × (Kptr → Word) × Int) :=
  match log.pri0.lookup addr, log.pri1.lookup addr with
  | some w, _ => do
    check (inNucleus = w.maybeInNucleus)
    pure ({ log with pri0 := log.pri0.erase addr }, w.undo memory, 0)
  | none, some w => do
    check (inNucleus = w.maybeInNucleus)
    pure ({ log with pri1 := log.pri1.erase addr }, w.undo memory, 0)
  | none, none => some (log, memory, -1)

/-- The tables' `set` fails for a key that is already there. -/
def changeUndoWriteWordHowSoon (log : LoggedWrites) (addr : Kptr) (newHowSoon : Nat) :
    Option LoggedWrites := do
  check (newHowSoon = 0 ∨ newHowSoon = 1)
  match log.pri0.lookup addr, log.pri1.lookup addr with
  | some w, other =>
    if newHowSoon = 0 then pure log
    else do
      check (other.isNone = true)
      pure { pri0 := log.pri0.erase addr, pri1 := log.pri1.insert addr w }
  | none, some w =>
    if newHowSoon = 1 then pure log
    else pure { pri0 := log.pri0.insert addr w, pri1 := log.pri1.erase addr }
  | none, none => pure log

/-- The writes of `undo`, in order. -/
def undoWrites (iterate : Dict → List OneWrite) (log : LoggedWrites) : List (Kptr × Word) :=
  (iterate log.pri0).map (fun w => (w.addr, w.origval)) ++
    (iterate log.pri1).map (fun w => (w.addr, w.origval))

/-- Undo everything. -/
def undo (iterate : Dict → List OneWrite) (log : LoggedWrites) (memory : Kptr → Word) :
    Kptr → Word :=
  (iterate log.pri1).foldl (fun memory w => w.undo memory)
    ((iterate log.pri0).foldl (fun memory w => w.undo memory) memory)

/-! ## Priorities -/

/-- The table for a priority. -/
def dict (log : LoggedWrites) : Nat → Dict
  | 0 => log.pri0
  | 1 => log.pri1
  | _ => ∅

def setDict (log : LoggedWrites) (i : Nat) (d : Dict) : LoggedWrites :=
  if i = 0 then { log with pri0 := d } else { log with pri1 := d }

/-- **What is in the log**: the words with a priority, each in the table for it, with its original
value. -/
structure Lists (log : LoggedWrites) (prio : Kptr → Option Nat) (orig : Kptr → Word)
    (inNucleus : Kptr → Bool) : Prop where
  mem_iff : ∀ i a, a ∈ log.dict i ↔ prio a = some i
  entry : ∀ i a w, (log.dict i).lookup a = some w →
    w.addr = a ∧ w.origval = orig a ∧ w.maybeInNucleus = inNucleus a

variable {log : LoggedWrites} {prio : Kptr → Option Nat} {orig memory : Kptr → Word}
  {inNucleus : Kptr → Bool} {a addr : Kptr} {i howSoon : Nat} {w : OneWrite}

theorem lists_empty : empty.Lists (fun _ => none) orig inNucleus where
  mem_iff i a := by
    refine iff_of_false (fun h => ?_) fun h => nomatch h
    match i with
    | 0 | 1 | _ + 2 => exact notMem_empty a h
  entry i a w h := by
    match i with
    | 0 | 1 | _ + 2 => cases h

theorem dict_setDict (hi : i ≤ 1) (d : Dict) : (log.setDict i d).dict = update log.dict i d := by
  funext j
  rcases Nat.le_one_iff_eq_zero_or_eq_one.mp hi with rfl | rfl
  · match j with
    | 0 | 1 | _ + 2 => rfl
  · match j with
    | 0 | 1 | _ + 2 => rfl

namespace Lists

variable (hl : log.Lists prio orig inNucleus)

include hl

theorem le_one (h : prio a = some i) : i ≤ 1 := by
  have hmem := (hl.mem_iff i a).mpr h
  match i with
  | 0 => exact Nat.zero_le 1
  | 1 => exact Nat.le_refl 1
  | _ + 2 => exact absurd hmem (notMem_empty a)

theorem exists_lookup (h : prio a = some i) : ∃ w, (log.dict i).lookup a = some w :=
  Option.isSome_iff_exists.mp (lookup_isSome.mpr ((hl.mem_iff i a).mpr h))

theorem lookup_eq_none (h : prio a ≠ some i) : (log.dict i).lookup a = none :=
  AList.lookup_eq_none.mpr (mt (hl.mem_iff i a).mp h)

/-- A word gets another priority, or none. -/
theorem set {d : Dict} {v : Option Nat} (hi : i ≤ 1)
    (hother : ∀ j ≠ i, prio addr ≠ some j ∧ v ≠ some j) (hmem : addr ∈ d ↔ v = some i)
    (hentry : ∀ w, d.lookup addr = some w →
      w.addr = addr ∧ w.origval = orig addr ∧ w.maybeInNucleus = inNucleus addr)
    (hrest : ∀ a ≠ addr, d.lookup a = (log.dict i).lookup a) :
    (log.setDict i d).Lists (update prio addr v) orig inNucleus where
  mem_iff j a := by
    rw [dict_setDict hi]
    rcases eq_or_ne a addr with rfl | hne
    · rw [update_self]
      rcases eq_or_ne j i with rfl | hj
      · rw [update_self, hmem]
      · rw [update_of_ne hj, hl.mem_iff]
        exact iff_of_false (hother j hj).1 (hother j hj).2
    · rw [update_of_ne hne, ← hl.mem_iff]
      rcases eq_or_ne j i with rfl | hj
      · rw [update_self, ← lookup_isSome, hrest a hne, lookup_isSome]
      · rw [update_of_ne hj]
  entry j a w h := by
    rw [dict_setDict hi] at h
    rcases eq_or_ne j i with rfl | hj
    · rw [update_self] at h
      rcases eq_or_ne a addr with rfl | hne
      · exact hentry w h
      · exact hl.entry j a w (hrest a hne ▸ h)
    · rw [update_of_ne hj] at h
      exact hl.entry j a w h

/-- A word without a priority gets one. -/
theorem insert (hi : i ≤ 1) (hnone : prio addr = none) (haddr : w.addr = addr)
    (horig : w.origval = orig addr) (hnucleus : w.maybeInNucleus = inNucleus addr) :
    (log.setDict i ((log.dict i).insert addr w)).Lists (update prio addr (some i)) orig
      inNucleus := by
  refine hl.set hi (fun j hj => ?_) (by simp) (fun v h => ?_) fun a hne => lookup_insert_ne hne
  · simp [hnone, hj.symm]
  · rw [lookup_insert, Option.some.injEq] at h
    exact h ▸ ⟨haddr, horig, hnucleus⟩

/-- A word loses its priority. -/
theorem erase (h : prio addr = some i) :
    (log.setDict i ((log.dict i).erase addr)).Lists (update prio addr none) orig inNucleus := by
  refine hl.set (hl.le_one h) (fun j hj => ?_) (by simp) (fun v hv => ?_)
    fun a hne => lookup_erase_ne hne
  · simp [h, hj.symm]
  · rw [lookup_erase] at hv
    cases hv

/-- **A write to a word without a priority** is logged. -/
theorem write1Undoable (memory : Kptr → Word) (val : Word) (haligned : addr.toNat % 4 = 0)
    (hhow : howSoon ≤ 1) (hnone : prio addr = none) (hmem : memory addr = orig addr) :
    ∃ log', log.write1UndoableAlignedWord memory addr (inNucleus addr) val howSoon =
        some (log', update memory addr val, 0) ∧
      log'.Lists (update prio addr (some howSoon)) orig inNucleus := by
  have hfresh : ¬ (addr ∈ log.pri0 ∨ addr ∈ log.pri1) := by
    rintro (h | h)
    · cases hnone.symm.trans ((hl.mem_iff 0 addr).mp h)
    · cases hnone.symm.trans ((hl.mem_iff 1 addr).mp h)
  have hlisted := hl.insert (w := ⟨addr, memory addr, inNucleus addr, haligned⟩) hhow hnone rfl
    hmem rfl
  have hrecord : log.record addr (inNucleus addr) (memory addr) howSoon =
      some (log.setDict howSoon ((log.dict howSoon).insert addr
        ⟨addr, memory addr, inNucleus addr, haligned⟩)) := by
    rcases Nat.le_one_iff_eq_zero_or_eq_one.mp hhow with rfl | rfl
    · simp only [record, if_neg hfresh, oneWrite, dif_pos haligned, run_do]
      rfl
    · simp only [record, if_neg hfresh, oneWrite, dif_pos haligned, run_do]
      rfl
  refine ⟨_, ?_, hlisted⟩
  simp [write1UndoableAlignedWord, check_pos haligned, performUndoableAlignedWrite, hrecord,
    write1AlignedWord, check_pos (Or.inr haligned), if_neg hfresh]

/-- **Undoing one write** puts the original value back, and takes it off the log. -/
theorem undoWriteWord (memory : Kptr → Word) (h : prio addr = some i) (oldval : Word) :
    ∃ log', log.undoWriteWordCommon memory addr oldval (inNucleus addr) =
        some (log', update memory addr (orig addr), 0) ∧
      log'.Lists (update prio addr none) orig inNucleus := by
  refine ⟨_, ?_, hl.erase h⟩
  obtain ⟨w, hw⟩ := hl.exists_lookup h
  obtain ⟨haddr, horig, hnucleus⟩ := hl.entry i addr w hw
  have hundo : w.undo memory = update memory addr (orig addr) := by
    rw [OneWrite.undo, haddr, horig]
  rcases Nat.le_one_iff_eq_zero_or_eq_one.mp (hl.le_one h) with rfl | rfl
  · have hw : log.pri0.lookup addr = some w := hw
    simp only [undoWriteWordCommon, hw, hundo, check_pos hnucleus.symm, run_do]
    rfl
  · have hw : log.pri1.lookup addr = some w := hw
    have hnone : log.pri0.lookup addr = none :=
      hl.lookup_eq_none (i := 0) (by rw [h]; decide)
    simp only [undoWriteWordCommon, hnone, hw, hundo, check_pos hnucleus.symm, run_do]
    rfl

/-- **Changing a priority.** -/
theorem changeHowSoon (h : prio addr = some i) (hhow : howSoon ≤ 1) :
    ∃ log', log.changeUndoWriteWordHowSoon addr howSoon = some log' ∧
      log'.Lists (update prio addr (some howSoon)) orig inNucleus := by
  obtain ⟨w, hw⟩ := hl.exists_lookup h
  obtain ⟨haddr, horig, hnucleus⟩ := hl.entry i addr w hw
  -- moving the word, if it does not have this priority already
  have hsame : howSoon = i → log.Lists (update prio addr (some howSoon)) orig inNucleus := by
    rintro rfl
    rwa [update_eq_self_iff.mpr h.symm]
  have hmoved := (hl.erase h).insert hhow (update_self ..) haddr horig hnucleus
  rw [update_idem] at hmoved
  rcases Nat.le_one_iff_eq_zero_or_eq_one.mp (hl.le_one h) with rfl | rfl
  · have hw : log.pri0.lookup addr = some w := hw
    have hother : log.pri1.lookup addr = none := hl.lookup_eq_none (i := 1) (by rw [h]; decide)
    rcases Nat.le_one_iff_eq_zero_or_eq_one.mp hhow with rfl | rfl
    · exact ⟨log, by simp only [changeUndoWriteWordHowSoon, hw]; rfl, hsame rfl⟩
    · refine ⟨_, ?_, hmoved⟩
      simp only [changeUndoWriteWordHowSoon, hw, hother]
      rfl
  · have hw : log.pri1.lookup addr = some w := hw
    have hother : log.pri0.lookup addr = none := hl.lookup_eq_none (i := 0) (by rw [h]; decide)
    rcases Nat.le_one_iff_eq_zero_or_eq_one.mp hhow with rfl | rfl
    · refine ⟨_, ?_, hmoved⟩
      simp only [changeUndoWriteWordHowSoon, hw, hother]
      rfl
    · exact ⟨log, by simp only [changeUndoWriteWordHowSoon, hw, hother]; rfl, hsame rfl⟩

/-! ## Undoing everything -/

section Undo

variable {iterate : Dict → List OneWrite}
  (hiterate : ∀ d, (iterate d).Perm (d.entries.map Sigma.snd))

include hiterate

theorem mem_iterate (hw : w ∈ iterate (log.dict i)) :
    prio w.addr = some i ∧ w.origval = orig w.addr := by
  obtain ⟨⟨a, v⟩, hentry, rfl⟩ := mem_map.mp ((hiterate _).mem_iff.mp hw)
  have hlookup := mem_lookup_iff.mpr hentry
  obtain ⟨haddr, horig, -⟩ := hl.entry i a v hlookup
  rw [haddr]
  exact ⟨(hl.mem_iff i a).mp (lookup_isSome.mp (by rw [hlookup]; rfl)), horig⟩

theorem exists_mem_iterate (h : prio a = some i) : ∃ w ∈ iterate (log.dict i), w.addr = a := by
  obtain ⟨w, hw⟩ := hl.exists_lookup h
  refine ⟨w, (hiterate _).mem_iff.mpr (mem_map.mpr ⟨⟨a, w⟩, ?_, rfl⟩), (hl.entry i a w hw).1⟩
  exact mem_lookup_iff.mp hw

/-- The words of one table. -/
theorem mem_iterate_iff :
    a ∈ ((iterate (log.dict i)).map fun w => (w.addr, w.origval)).map Prod.fst ↔
      prio a = some i := by
  rw [map_map, mem_map]
  constructor
  · rintro ⟨w, hw, rfl⟩
    exact (hl.mem_iterate hiterate hw).1
  · intro h
    exact hl.exists_mem_iterate hiterate h

omit hl hiterate in
theorem foldl_undo (ws : List OneWrite) (memory : Kptr → Word) :
    ws.foldl (fun memory w => w.undo memory) memory =
      writeAll memory (ws.map fun w => (w.addr, w.origval)) := by
  induction ws generalizing memory with
  | nil => rfl
  | cons w ws ih => exact ih _

/-- **Undoing everything** restores the memory, if words without a priority were not changed. -/
theorem undo_eq (hmem : ∀ a, prio a = none → memory a = orig a) :
    log.undo iterate memory = orig := by
  rw [undo, foldl_undo, foldl_undo, ← writeAll_append]
  refine writeAll_eq (fun write hwrite => ?_) fun a ha => hmem a ?_
  · rcases mem_append.mp hwrite with hwrite | hwrite
    · obtain ⟨w, hw, rfl⟩ := mem_map.mp hwrite
      exact (hl.mem_iterate hiterate (i := 0) hw).2
    · obtain ⟨w, hw, rfl⟩ := mem_map.mp hwrite
      exact (hl.mem_iterate hiterate (i := 1) hw).2
  · rw [map_append, mem_append, not_or] at ha
    rw [Option.eq_none_iff_forall_ne_some]
    intro i hprio
    rcases Nat.le_one_iff_eq_zero_or_eq_one.mp (hl.le_one hprio) with rfl | rfl
    · exact ha.1 ((hl.mem_iterate_iff hiterate (i := 0)).mpr hprio)
    · exact ha.2 ((hl.mem_iterate_iff hiterate (i := 1)).mpr hprio)

end Undo

end Lists

end LoggedWrites

end Kerninst.Solaris
