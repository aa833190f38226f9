import Mathlib.Data.Option.Basic
import Kerninst.Lib.SwapRemove
import Kerninst.Lib.Undo
import Mathlib.Data.List.Nodup

/-!
# The Linux driver's log of writes

Modelled from `kerninstdriver-linux/src/loggedWrites.c` and `physMem.c`. The log is an array with
one entry for each address at which an undoable write was made: the bytes that were there, how
many, and how soon they must be restored. It is searched by the address alone. An entry is removed
by moving the last entry into its place.

A buffer is what a `char *` points to: a function of the offset. Every routine reads as many bytes
of it as it is told to, so what lies behind the bytes that were put there is part of the model.

A `Platform` is a way to write an instruction. `i386` pads it to a power of two with the bytes
that are already there and writes these back, so that it can use `cmpxchg`; in the end it has
written the bytes of the instruction alone.
-/

namespace Kerninst.Linux

open List

abbrev Byte := BitVec 8

/-- What a `char *` points to. -/
abbrev CharPtr := Nat → Byte

/-- `memcmp(p, q, n) == 0` -/
def SameBytes (p q : CharPtr) (n : Nat) : Prop := ∀ i < n, p i = q i

instance (p q : CharPtr) (n : Nat) : Decidable (SameBytes p q n) :=
  inferInstanceAs (Decidable (∀ i < n, p i = q i))

theorem SameBytes.trans {p q r : CharPtr} {n : Nat} (h : SameBytes p q n) (h' : SameBytes q r n) :
    SameBytes p r n :=
  fun i hi => (h i hi).trans (h' i hi)

/-- The length of an instruction; the buffers of the driver hold 16 bytes. -/
structure InsnLength where
  val : Nat
  pos : 0 < val
  le : val ≤ 16
  deriving DecidableEq

/-! ## Memory -/

section Memory

variable {w : Nat}

/-- `length` bytes at `addr` -/
def bytesAt (addr : BitVec w) (val : CharPtr) (length : Nat) : BitVec w → Option Byte :=
  fun a => if (a - addr).toNat < length then some (val (a - addr).toNat) else none

/-- `(char *)addr` -/
def readAt (memory : BitVec w → Byte) (addr : BitVec w) : CharPtr :=
  fun i => memory (addr + BitVec.ofNat w i)

/-- The byte is one of `length` bytes at `addr`. -/
def Covers (addr : BitVec w) (length : Nat) (a : BitVec w) : Prop := (a - addr).toNat < length

instance (addr : BitVec w) (length : Nat) (a : BitVec w) : Decidable (Covers addr length a) :=
  inferInstanceAs (Decidable (_ < _))

/-- `memcpy((char *)addr, val, length)` -/
def memcpy (memory : BitVec w → Byte) (addr : BitVec w) (val : CharPtr) (length : Nat) :
    BitVec w → Byte :=
  overlay memory (bytesAt addr val length)

variable {memory : BitVec w → Byte} {addr a : BitVec w} {val : CharPtr} {length : Nat}

theorem bytesAt_eq_some {b : Byte} :
    bytesAt addr val length a = some b ↔ Covers addr length a ∧ val (a - addr).toNat = b := by
  unfold bytesAt Covers
  split <;> simp_all

theorem bytesAt_eq_none : bytesAt addr val length a = none ↔ ¬ Covers addr length a := by
  unfold bytesAt Covers
  split <;> simp_all

theorem memcpy_of_covers (h : Covers addr length a) :
    memcpy memory addr val length a = val (a - addr).toNat :=
  overlay_of_some (bytesAt_eq_some.mpr ⟨h, rfl⟩)

theorem memcpy_of_not_covers (h : ¬ Covers addr length a) :
    memcpy memory addr val length a = memory a :=
  overlay_of_none (bytesAt_eq_none.mpr h)

theorem readAt_sub : readAt memory addr (a - addr).toNat = memory a := by
  rw [readAt, BitVec.ofNat_toNat, BitVec.setWidth_eq, BitVec.add_comm, BitVec.sub_add_cancel]

end Memory

/-! ## Writing an instruction -/

/-- A way to write an instruction: exactly its bytes are written. -/
structure Platform where
  width : Nat
  write1Insn : (BitVec width → Byte) → BitVec width → CharPtr → InsnLength → BitVec width → Byte
  write1Insn_eq : ∀ memory addr val length,
    write1Insn memory addr val length = memcpy memory addr val length.val

/-- The number of bytes that `do_atomic_write` writes. -/
def writeLength (length : Nat) : Nat :=
  if length > 4 then (if length ≤ 8 then 8 else 16) else 4

/-- `do_atomic_write`: `buff` is filled up with what is in memory. Sixteen bytes are written in
two halves. A `cmpxchg` compares with what was read just before, so it succeeds. -/
def doAtomicWrite (memory : BitVec 32 → Byte) (dst : BitVec 32) (val : CharPtr) (length : Nat) :
    BitVec 32 → Byte :=
  let buff : CharPtr := fun i => if i < length then val i else readAt memory dst i
  if writeLength length = 16 then
    memcpy (memcpy memory dst buff 8) (dst + 8) (fun i => buff (8 + i)) 8
  else memcpy memory dst buff (writeLength length)

/-- `write1Insn()` on i386 -/
def i386Write1Insn (memory : BitVec 32 → Byte) (addr : BitVec 32) (val : CharPtr)
    (length : InsnLength) : BitVec 32 → Byte :=
  if length.val > 1 then doAtomicWrite memory addr val length.val
  else memcpy memory addr val 1

section Padding

variable {memory : BitVec 32 → Byte} {dst : BitVec 32} {val : CharPtr} {length n : Nat}

/-- What is written behind the instruction was there already. -/
theorem memcpy_padded (h : length ≤ n) :
    memcpy memory dst (fun i => if i < length then val i else readAt memory dst i) n =
      memcpy memory dst val length := by
  funext a
  by_cases hval : Covers dst length a
  · have hn : Covers dst n a := Nat.lt_of_lt_of_le hval h
    rw [memcpy_of_covers hn, memcpy_of_covers hval]
    exact if_pos hval
  · rw [memcpy_of_not_covers hval]
    by_cases hn : Covers dst n a
    · rw [memcpy_of_covers hn]
      exact (if_neg hval).trans readAt_sub
    · exact memcpy_of_not_covers hn

/-- Two halves make a whole. -/
theorem memcpy_halves (buff : CharPtr) :
    memcpy (memcpy memory dst buff 8) (dst + 8) (fun i => buff (8 + i)) 8 =
      memcpy memory dst buff 16 := by
  funext a
  have hsub : (a - (dst + 8)).toNat = ((a - dst).toNat + (2 ^ 32 - 8)) % 2 ^ 32 := by bv_omega
  by_cases hsecond : Covers (dst + 8) 8 a
  · have hoff : (a - dst).toNat = 8 + (a - (dst + 8)).toNat := by
      have := hsecond
      unfold Covers at this
      omega
    have hwhole : Covers dst 16 a := by
      have := hsecond
      unfold Covers at this ⊢
      omega
    rw [memcpy_of_covers hsecond, memcpy_of_covers hwhole, hoff]
  · rw [memcpy_of_not_covers hsecond]
    by_cases hfirst : Covers dst 8 a
    · have hwhole : Covers dst 16 a := Nat.lt_of_lt_of_le hfirst (by decide)
      rw [memcpy_of_covers hfirst, memcpy_of_covers hwhole]
    · have hwhole : ¬ Covers dst 16 a := by
        unfold Covers at *
        omega
      rw [memcpy_of_not_covers hfirst, memcpy_of_not_covers hwhole]

theorem le_writeLength (h : length ≤ 16) : length ≤ writeLength length := by
  unfold writeLength
  split
  · split <;> omega
  · omega

theorem doAtomicWrite_eq (h : length ≤ 16) :
    doAtomicWrite memory dst val length = memcpy memory dst val length := by
  unfold doAtomicWrite
  by_cases h16 : writeLength length = 16
  · rw [if_pos h16, memcpy_halves, memcpy_padded h]
  · rw [if_neg h16, memcpy_padded (le_writeLength h)]

theorem i386Write1Insn_eq (memory : BitVec 32 → Byte) (addr : BitVec 32) (val : CharPtr)
    (length : InsnLength) :
    i386Write1Insn memory addr val length = memcpy memory addr val length.val := by
  unfold i386Write1Insn
  by_cases h : length.val > 1
  · rw [if_pos h, doAtomicWrite_eq length.le]
  · have hone : length.val = 1 := Nat.le_antisymm (Nat.le_of_not_lt h) length.pos
    rw [if_neg h, hone]

end Padding

def i386 : Platform := ⟨32, i386Write1Insn, i386Write1Insn_eq⟩

/-- On ppc64 the bytes are copied, and the instruction caches are flushed. -/
def ppc64 : Platform :=
  ⟨64, fun memory addr val length => memcpy memory addr val length.val, fun _ _ _ _ => rfl⟩

/-! ## The log -/

/-- `oneWrite` -/
structure OneWrite (w : Nat) where
  addr : BitVec w
  origval : CharPtr
  length : InsnLength
  howsoon : Nat

/-- The entry is for this byte too. -/
def OneWrite.Covers {w : Nat} (e : OneWrite w) (a : BitVec w) : Prop :=
  Linux.Covers e.addr e.length.val a

/-- `MAX_WRITES` -/
def maxWrites : Nat := 1024

variable {p : Platform}

/-- `undo_blind` -/
def undoBlind (p : Platform) (memory : BitVec p.width → Byte) (e : OneWrite p.width) :
    BitVec p.width → Byte :=
  p.write1Insn memory e.addr e.origval e.length

/-- `destroy_logged_writes` -/
def destroyLoggedWrites (p : Platform) (log : List (OneWrite p.width))
    (memory : BitVec p.width → Byte) : BitVec p.width → Byte :=
  let soon := (log.filter fun e => e.howsoon = 0).foldl (undoBlind p) memory
  (log.filter fun e => e.howsoon ≠ 0).foldl (undoBlind p) soon

/-- `LW_performUndoableWrite`. An address that is in the log already is written without a word,
and `oldval_fillin` is not filled in. If the log is full nothing is written. -/
def lwPerformUndoableWrite (p : Platform) (log : List (OneWrite p.width))
    (memory : BitVec p.width → Byte) (addr : BitVec p.width) (length : InsnLength) (val : CharPtr)
    (howSoon : Nat) :
    Option (Option CharPtr × List (OneWrite p.width) × (BitVec p.width → Byte)) :=
  if log.any (fun e => e.addr = addr) then
    some (none, log, p.write1Insn memory addr val length)
  else if log.length = maxWrites then none
  else
    let origval := readAt memory addr
    some (some origval, log ++ [⟨addr, origval, length, howSoon⟩],
      p.write1Insn memory addr val length)

/-- `LW_undoWrite1Insn`. It only prints a message if the address is not in the log, or if the
caller expects other bytes to be restored. -/
def lwUndoWrite1Insn (p : Platform) (log : List (OneWrite p.width))
    (memory : BitVec p.width → Byte) (addr : BitVec p.width) :
    List (OneWrite p.width) × (BitVec p.width → Byte) :=
  match log.findIdx? (fun e => e.addr = addr) with
  | none => (log, memory)
  | some i => (swapRemove log i, log[i]?.elim memory (undoBlind p memory))

/-- `LW_changeUndoableWriteHowSoon` -/
def lwChangeUndoableWriteHowSoon {w : Nat} (log : List (OneWrite w)) (addr : BitVec w)
    (howSoon : Nat) : List (OneWrite w) :=
  match log.findIdx? (fun e => e.addr = addr) with
  | none => log
  | some i => log.modify i fun e => { e with howsoon := howSoon }

/-! ## What the log is good for -/

/-- **What the log is good for**: each entry holds original bytes, and bytes that no entry covers
are original. -/
structure Saves {w : Nat} (log : List (OneWrite w)) (orig memory : BitVec w → Byte) : Prop where
  saved : ∀ e ∈ log, ∀ a, e.Covers a → e.origval (a - e.addr).toNat = orig a
  rest : ∀ a, (∀ e ∈ log, ¬ e.Covers a) → memory a = orig a
  nodup : (log.map OneWrite.addr).Nodup

theorem saves_nil {w : Nat} (memory : BitVec w → Byte) : Saves [] memory memory :=
  ⟨fun _ h => (nomatch h), fun _ _ => rfl, nodup_nil⟩

theorem undoBlind_eq (memory : BitVec p.width → Byte) (e : OneWrite p.width) :
    undoBlind p memory e = overlay memory (bytesAt e.addr e.origval e.length.val) :=
  p.write1Insn_eq ..

/-- One list of writes, those to be restored soon first. -/
theorem destroyLoggedWrites_eq (log : List (OneWrite p.width)) (memory : BitVec p.width → Byte) :
    destroyLoggedWrites p log memory =
      ((log.filter (fun e => e.howsoon = 0) ++ log.filter fun e => e.howsoon ≠ 0).map
        fun e => bytesAt e.addr e.origval e.length.val).foldl overlay memory := by
  rw [foldl_map, foldl_append]
  unfold destroyLoggedWrites
  simp [← undoBlind_eq]

section Saves

variable {log : List (OneWrite p.width)} {orig memory : BitVec p.width → Byte}
  {addr : BitVec p.width} {length : InsnLength} {val : CharPtr} {e : OneWrite p.width}

/-- **Everything is restored**, in whatever order. -/
theorem Saves.destroyLoggedWrites (hs : Saves log orig memory) :
    destroyLoggedWrites p log memory = orig := by
  have hmem : ∀ e, e ∈ log.filter (fun e => e.howsoon = 0) ++ log.filter (fun e => e.howsoon ≠ 0) ↔
      e ∈ log := by
    intro e
    simp only [mem_append, mem_filter, decide_eq_true_eq, ← and_or_left]
    exact and_iff_left (em _)
  rw [destroyLoggedWrites_eq]
  refine foldl_overlay_eq ?_ ?_
  · intro write hwrite a b hb
    obtain ⟨e, he, rfl⟩ := mem_map.mp hwrite
    obtain ⟨hcovers, rfl⟩ := bytesAt_eq_some.mp hb
    exact hs.saved e ((hmem e).mp he) a hcovers
  · intro a ha
    refine hs.rest a fun e he => ?_
    exact bytesAt_eq_none.mp (ha _ (mem_map_of_mem ((hmem e).mpr he)))

/-- A write inside an entry's range needs no further entry. -/
theorem Saves.write (hs : Saves log orig memory) (he : e ∈ log)
    (hlength : length.val ≤ e.length.val) :
    Saves log orig (p.write1Insn memory e.addr val length) := by
  refine ⟨hs.saved, fun a ha => ?_, hs.nodup⟩
  rw [p.write1Insn_eq, memcpy_of_not_covers fun h => ha e he (Nat.lt_of_lt_of_le h hlength)]
  exact hs.rest a ha

/-- **Logging** bytes that no entry covers. -/
theorem Saves.append (hs : Saves log orig memory) (haddr : ∀ e ∈ log, e.addr ≠ addr)
    (hapart : ∀ e ∈ log, ∀ a, e.Covers a → ¬ Covers addr length.val a) (howSoon : Nat) :
    Saves (log ++ [⟨addr, readAt memory addr, length, howSoon⟩]) orig
      (p.write1Insn memory addr val length) := by
  refine ⟨?_, ?_, ?_⟩
  · intro e he a ha
    rcases mem_append.mp he with he | he
    · exact hs.saved e he a ha
    · obtain rfl := mem_singleton.mp he
      exact readAt_sub.trans (hs.rest a fun e' he' hcovers => hapart e' he' a hcovers ha)
  · intro a ha
    have hnew : ¬ Covers addr length.val a := ha _ mem_concat_self
    rw [p.write1Insn_eq, memcpy_of_not_covers hnew]
    exact hs.rest a fun e he => ha e (mem_append_left _ he)
  · rw [map_append]
    refine nodup_append.mpr ⟨hs.nodup, nodup_singleton _, ?_⟩
    intro a ha b hb
    obtain ⟨e, he, rfl⟩ := mem_map.mp ha
    obtain rfl := mem_singleton.mp hb
    exact haddr e he

theorem findIdx?_eq_some {log : List (OneWrite p.width)} (he : e ∈ log) :
    ∃ i e', log.findIdx? (fun e' => e'.addr = e.addr) = some i ∧ log[i]? = some e' ∧
      e'.addr = e.addr := by
  have hsome : (log.findIdx? fun e' => e'.addr = e.addr).isSome := by
    rw [findIdx?_isSome, any_eq_true]
    exact ⟨e, he, by simp⟩
  obtain ⟨i, hi⟩ := Option.isSome_iff_exists.mp hsome
  obtain ⟨hlt, haddr, -⟩ := findIdx?_eq_some_iff_getElem.mp hi
  exact ⟨i, log[i], hi, getElem?_eq_getElem hlt, by simpa using haddr⟩

/-- **Unlogging** restores what was logged, and keeps the other entries. -/
theorem Saves.undo (hs : Saves log orig memory) (he : e ∈ log) :
    ∃ log' memory', lwUndoWrite1Insn p log memory e.addr = (log', memory') ∧
      (e :: log').Perm log ∧ Saves log' orig memory' := by
  obtain ⟨i, e', hi, hget, haddr⟩ := findIdx?_eq_some he
  obtain rfl : e' = e :=
    inj_on_of_nodup_map hs.nodup (mem_of_getElem? hget) he haddr
  have hperm := cons_swapRemove_perm hget
  refine ⟨_, undoBlind p memory e', ?_, hperm, ?_, ?_, ?_⟩
  · simp [lwUndoWrite1Insn, hi, hget]
  · exact fun e he => hs.saved e (hperm.subset (mem_cons_of_mem _ he))
  · intro a ha
    rw [undoBlind, p.write1Insn_eq]
    by_cases hcovers : e'.Covers a
    · rw [memcpy_of_covers hcovers]
      exact hs.saved e' he a hcovers
    · rw [memcpy_of_not_covers hcovers]
      refine hs.rest a fun e he => ?_
      rcases mem_cons.mp (hperm.symm.subset he) with rfl | he
      · exact hcovers
      · exact ha e he
  · exact ((hperm.map _).nodup_iff.mpr hs.nodup).of_cons

/-- All of an entry but how soon it is to be restored. -/
def OneWrite.undoes {w : Nat} (e : OneWrite w) : BitVec w × CharPtr × InsnLength :=
  (e.addr, e.origval, e.length)

theorem undoes_eq_iff {e e' : OneWrite p.width} : e.undoes = e'.undoes ↔
    e.addr = e'.addr ∧ e.origval = e'.origval ∧ e.length = e'.length := by
  simp [OneWrite.undoes]

theorem map_undoes_changeHowSoon (log : List (OneWrite p.width)) (addr : BitVec p.width)
    (howSoon : Nat) :
    (lwChangeUndoableWriteHowSoon log addr howSoon).map OneWrite.undoes =
      log.map OneWrite.undoes := by
  unfold lwChangeUndoableWriteHowSoon
  split
  · rfl
  · refine ext_getElem? fun j => ?_
    rw [getElem?_map, getElem?_map, getElem?_modify]
    cases log[j]? with
    | none => rfl
    | some e =>
      split
      · rfl
      · rfl

theorem exists_mem_of_map_undoes {log' : List (OneWrite p.width)}
    (h : log'.map OneWrite.undoes = log.map OneWrite.undoes) (he : e ∈ log') :
    ∃ e₀ ∈ log, e₀.undoes = e.undoes := by
  have hmem : e.undoes ∈ log'.map OneWrite.undoes := mem_map_of_mem he
  rw [h] at hmem
  exact mem_map.mp hmem

/-- How soon an entry is to be restored does not matter. -/
theorem Saves.of_map_undoes {log' : List (OneWrite p.width)} (hs : Saves log orig memory)
    (h : log'.map OneWrite.undoes = log.map OneWrite.undoes) : Saves log' orig memory := by
  refine ⟨?_, ?_, ?_⟩
  · intro e he a hcovers
    obtain ⟨e₀, he₀, heq⟩ := exists_mem_of_map_undoes h he
    obtain ⟨haddr, horigval, hlength⟩ := undoes_eq_iff.mp heq
    rw [← haddr, ← horigval]
    refine hs.saved e₀ he₀ a ?_
    rwa [OneWrite.Covers, haddr, hlength]
  · intro a ha
    refine hs.rest a fun e he => ?_
    obtain ⟨e', he', heq⟩ := exists_mem_of_map_undoes h.symm he
    obtain ⟨haddr, -, hlength⟩ := undoes_eq_iff.mp heq
    have := ha e' he'
    rwa [OneWrite.Covers, haddr, hlength] at this
  · have haddr : ∀ l : List (OneWrite p.width), l.map OneWrite.addr =
        (l.map OneWrite.undoes).map Prod.fst := fun l => by rw [map_map]; rfl
    rw [haddr, h, ← haddr]
    exact hs.nodup

end Saves

end Kerninst.Linux
