import Mathlib.Data.BitVec

/-!
# Reads of kernel memory with holes

Modelled from `peek_block` of `kerninstd/kernelDriver/src/kernelDriver.C`. A `pread` may fail
because of a hole, and `peek_block` then asks for less. Only on Solaris does it ask for less: the
block is halved, and cut down to whole words, after each round, a successful one as well.

* So on Solaris it returns always, and elsewhere unless it meets a hole.
* The sizes it tries are fixed by `len`. The read ends at the hole if the number of words before
  the hole is a sum of some of `n / 2`, `n / 4`, …, where `n` is the number of all words. Else it
  ends before it.
-/

namespace Kerninst.PeekBlock

open BitVec (ofNat add_assoc ofNat_add)

/-- `kptr_t` -/
abbrev Kptr := BitVec 64

/-- `char` -/
abbrev Byte := BitVec 8

/-- `sparc_sun_solaris2_7`, and the others. -/
inductive Platform
  | solaris
  | other
  deriving DecidableEq

/-- What a call of `kerninst_pread` leaves: its result as an `int`, whether `errno` is `EFAULT` or
`EIO`, and the bytes at `startDest`. -/
structure Reply where
  rv : ℤ
  hole : Bool
  bytes : List Byte

/-- The variables of the loop, and the number of calls of `pread`. -/
structure State where
  total : ℕ
  bsize : ℕ
  startAddr : Kptr
  /-- the bytes below `startDest` -/
  dest : List Byte
  calls : ℕ

/-- `bsize` after a round. -/
def nextSize (p : Platform) (len total bsize : ℕ) : ℕ :=
  let bsize := if p = .solaris then bsize / 2 / 4 * 4 else bsize
  if len < (total + bsize) % 2 ^ 32 then (len + 2 ^ 32 - total) % 2 ^ 32 else bsize

/-- The end of a round. -/
def State.next (p : Platform) (len : ℕ) (s : State) : State :=
  { s with bsize := nextSize p len s.total s.bsize, calls := s.calls + 1 }

/-- A positive count is added. -/
def State.got (s : State) (reply : Reply) : State :=
  { s with
    total := (s.total + reply.rv.toNat) % 2 ^ 32
    startAddr := s.startAddr + BitVec.ofInt 64 reply.rv
    dest := s.dest ++ reply.bytes }

/-- The loop of `peek_block`. The answers of `pread` may differ from call to call. -/
def loop (p : Platform) (pread : ℕ → Kptr → ℕ → Reply) (len : ℕ) :
    ℕ → State → Option (ℕ × List Byte)
  | 0, _ => none
  | fuel + 1, s =>
    if s.total < len ∧ s.bsize ≠ 0 then
      let reply := pread s.calls s.startAddr s.bsize
      if 0 < reply.rv then loop p pread len fuel ((s.got reply).next p len)
      else if reply.rv = 0 then some (s.total, s.dest)
      else if reply.hole then loop p pread len fuel (s.next p len)
      else some (0, s.dest)
    else some (s.total, s.dest)

/-- `peek_block` -/
def peekBlock (p : Platform) (pread : ℕ → Kptr → ℕ → Reply) (fuel : ℕ) (startAddr : Kptr)
    (len : ℕ) (rereadOnFault : Bool) : Option (ℕ × List Byte) :=
  if rereadOnFault then loop p pread len fuel ⟨0, len, startAddr, [], 0⟩
  else
    let reply := pread 0 startAddr len
    some (if reply.rv < 0 then (0, []) else (reply.rv.toNat, reply.bytes))

variable {p : Platform} {pread : ℕ → Kptr → ℕ → Reply} {len fuel : ℕ} {s : State}

theorem loop_exit (h : s.total < len → s.bsize = 0) :
    loop p pread len (fuel + 1) s = some (s.total, s.dest) := by
  rw [loop, if_neg]
  rintro ⟨hlt, hne⟩
  exact hne (h hlt)

theorem loop_hole (hlt : s.total < len) (hb : s.bsize ≠ 0)
    (h : (pread s.calls s.startAddr s.bsize).rv < 0) :
    loop p pread len (fuel + 1) s =
      if (pread s.calls s.startAddr s.bsize).hole then loop p pread len fuel (s.next p len)
      else some (0, s.dest) := by
  rw [loop, if_pos ⟨hlt, hb⟩]
  dsimp only
  rw [if_neg h.not_gt, if_neg h.ne]

/-! ## Termination -/

/-- What `pread` may answer: at most what is asked for, and a hole stays where it is. -/
structure Plausible (pread : ℕ → Kptr → ℕ → Reply) : Prop where
  le : ∀ n a size, (pread n a size).rv ≤ size
  persists : ∀ n m a size, n ≤ m → (pread n a size).rv < 0 → (pread n a size).hole →
    (pread m a size).rv < 0 ∧ (pread m a size).hole

theorem loop_returns : ∀ (m : ℕ) (s : State), m ≤ 32 → s.bsize < 2 ^ m →
    ∃ r, loop .solaris pread len (m + 1) s = some r := by
  intro m
  induction m with
  | zero => exact fun s _ hb => ⟨_, loop_exit fun _ => by simpa using hb⟩
  | succ m ih =>
    intro s hm hb
    by_cases hin : s.total < len ∧ s.bsize ≠ 0
    · have hbig : 2 ^ (m + 1) ≤ 2 ^ 32 := Nat.pow_le_pow_right (by decide) hm
      -- A state after this round is done, or has at most half of the block.
      have hnext : ∀ t : State, t.bsize = s.bsize →
          ∃ r, loop .solaris pread len (m + 1) (t.next .solaris len) = some r := by
        intro t ht
        by_cases hlt : t.total < len
        · refine ih _ (by omega) ?_
          change nextSize .solaris len t.total t.bsize < 2 ^ m
          rw [nextSize, if_pos rfl]
          split <;> omega
        · exact ⟨_, loop_exit fun h => absurd h hlt⟩
      rw [loop, if_pos hin]
      dsimp only
      split_ifs
      · exact hnext _ rfl
      · exact ⟨_, rfl⟩
      · exact hnext _ rfl
      · exact ⟨_, rfl⟩
    · exact ⟨_, loop_exit fun h => by simpa using fun h' => hin ⟨h, h'⟩⟩

/-- A kernel without readable memory. -/
def noMemory : ℕ → Kptr → ℕ → Reply := fun _ _ _ => ⟨-1, true, []⟩

theorem plausible_noMemory : Plausible noMemory where
  le _ _ _ := by simp only [noMemory]; omega
  persists _ _ _ _ _ _ _ := ⟨Int.negSucc_lt_zero 0, rfl⟩

theorem loop_noMemory : ∀ (fuel calls : ℕ), loop .other noMemory 4 fuel ⟨0, 4, 0, [], calls⟩ = none
  | 0, _ => rfl
  | fuel + 1, calls => by
    rw [loop_hole (Nat.succ_pos 3) (Nat.succ_ne_zero 3) (Int.negSucc_lt_zero 0)]
    exact loop_noMemory fuel (calls + 1)

/-- From this state on, no hole is met: reads succeed until the range has been read, or nothing
more is, or there is an error other than a hole. -/
inductive MeetsNoHole (p : Platform) (pread : ℕ → Kptr → ℕ → Reply) (len : ℕ) : State → Prop
  | done {s : State} (h : s.total < len → s.bsize = 0) : MeetsNoHole p pread len s
  | stopped {s : State} (h : (pread s.calls s.startAddr s.bsize).rv = 0 ∨
      (pread s.calls s.startAddr s.bsize).rv < 0 ∧
        (pread s.calls s.startAddr s.bsize).hole = false) : MeetsNoHole p pread len s
  | got {s : State} (hpos : 0 < (pread s.calls s.startAddr s.bsize).rv)
      (h : MeetsNoHole p pread len ((s.got (pread s.calls s.startAddr s.bsize)).next p len)) :
      MeetsNoHole p pread len s

theorem MeetsNoHole.returns (h : MeetsNoHole p pread len s) :
    ∃ fuel r, loop p pread len fuel s = some r := by
  induction h with
  | done h => exact ⟨1, _, loop_exit h⟩
  | @stopped s h =>
    by_cases hin : s.total < len ∧ s.bsize ≠ 0
    · obtain h | ⟨h, hhole⟩ := h
      · exact ⟨1, (s.total, s.dest), by rw [loop, if_pos hin]; dsimp only; rw [h]; rfl⟩
      · exact ⟨1, (0, s.dest), by rw [loop_hole hin.1 hin.2 h, hhole]; rfl⟩
    · exact ⟨1, _, loop_exit fun hlt => by simpa using fun hne => hin ⟨hlt, hne⟩⟩
  | @got s hpos _ ih =>
    obtain ⟨fuel, r, hr⟩ := ih
    by_cases hin : s.total < len ∧ s.bsize ≠ 0
    · refine ⟨fuel + 1, r, ?_⟩
      rw [loop, if_pos hin]
      dsimp only
      rw [if_pos hpos, hr]
    · exact ⟨1, _, loop_exit fun hlt => by simpa using fun hne => hin ⟨hlt, hne⟩⟩

/-- The block ends within the range, as far as the sum can tell. -/
def State.Cut (len : ℕ) (s : State) : Prop := ¬ len < (s.total + s.bsize) % 2 ^ 32

theorem State.Cut.nextSize (h : s.Cut len) : nextSize .other len s.total s.bsize = s.bsize := by
  simp only [PeekBlock.nextSize, reduceCtorEq, if_false]
  exact if_neg h

theorem State.cut_next (hlen : len < 2 ^ 32) : (s.next .other len).total < len →
    (s.next .other len).Cut len := by
  intro hlt
  change s.total < len at hlt
  simp only [Cut, next, PeekBlock.nextSize, reduceCtorEq, if_false]
  split <;> omega

/-- **A hole stays**: the same is asked for again and again. -/
theorem loop_hole_stays (hpread : Plausible pread) (hcut : s.Cut len) (hlt : s.total < len)
    (hb : s.bsize ≠ 0) (hneg : (pread s.calls s.startAddr s.bsize).rv < 0)
    (hhole : (pread s.calls s.startAddr s.bsize).hole) : loop .other pread len fuel s = none := by
  induction fuel generalizing s with
  | zero => rfl
  | succ fuel ih =>
    rw [loop_hole hlt hb hneg, if_pos hhole]
    have hnext : s.next .other len = { s with calls := s.calls + 1 } := by
      rw [State.next, hcut.nextSize]
    rw [hnext]
    obtain ⟨hneg', hhole'⟩ := hpread.persists _ (s.calls + 1) _ _ (Nat.le_succ _) hneg hhole
    exact ih hcut hlt hb hneg' hhole'

theorem meetsNoHole_of_returns (hpread : Plausible pread) (hlen : len < 2 ^ 32)
    {r : ℕ × List Byte} : ∀ (fuel : ℕ) (s : State), (s.total < len → s.Cut len) →
      loop .other pread len fuel s = some r → MeetsNoHole .other pread len s := by
  intro fuel
  induction fuel with
  | zero => exact fun s _ h => nomatch h
  | succ fuel ih =>
    intro s hcut hrun
    by_cases hin : s.total < len ∧ s.bsize ≠ 0
    · obtain hneg | hzero | hpos := lt_trichotomy (pread s.calls s.startAddr s.bsize).rv 0
      · cases hhole : (pread s.calls s.startAddr s.bsize).hole with
        | true => cases (loop_hole_stays hpread (hcut hin.1) hin.1 hin.2 hneg hhole).symm.trans hrun
        | false => exact .stopped (.inr ⟨hneg, hhole⟩)
      · exact .stopped (.inl hzero)
      · rw [loop, if_pos hin] at hrun
        dsimp only at hrun
        rw [if_pos hpos] at hrun
        exact .got hpos (ih _ (State.cut_next hlen) hrun)
    · exact .done fun hlt => by simpa using fun hne => hin ⟨hlt, hne⟩

/-- A kernel that delivers one word at a time, and has a hole from address 8 on. -/
def oneWord : ℕ → Kptr → ℕ → Reply := fun _ a size =>
  if a.toNat < 8 then ⟨min size 4, false, List.replicate (min size 4) 0⟩ else ⟨-1, true, []⟩

theorem plausible_oneWord : Plausible oneWord where
  le n a size := by
    simp only [oneWord]
    split <;> dsimp only <;> omega
  persists _ _ _ _ _ hneg hhole := ⟨hneg, hhole⟩

/-- `k` is a sum of some of `d`, `d / 2`, `d / 4`, …, each of them taken once at most. -/
def Halved : ℕ → ℕ → ℕ → Prop
  | 0, _, k => k = 0
  | m + 1, d, k => Halved m (d / 2) k ∨ ∃ k', k = d + k' ∧ Halved m (d / 2) k'

theorem halved_zero : ∀ m d, Halved m d 0
  | 0, _ => rfl
  | m + 1, d => .inl (halved_zero m (d / 2))

/-- All of them together are less than twice the first. -/
theorem Halved.lt {m d k : ℕ} (h : Halved m d k) : k = 0 ∨ k < 2 * d := by
  induction m generalizing d k with
  | zero => exact .inl h
  | succ m ih =>
    obtain h | ⟨k', rfl, h⟩ := h
    · have := ih h
      omega
    · have := ih h
      omega

/-- The words that can be read, and all bytes. -/
structure Memory where
  readableWord : BitVec 62 → Bool
  byte : Kptr → Byte

namespace Memory

variable (M : Memory) (start : Kptr) (errno : ℕ → Bool)

/-- The word that the byte is in can be read. -/
def readable (a : Kptr) : Bool :=
  M.readableWord (a.extractLsb' 2 62)

/-- The bytes from `start` on. -/
def bytes (size : ℕ) : List Byte :=
  (List.range size).map fun i => M.byte (start + BitVec.ofNat 64 i)

/-- `pread` of this memory. It may leave anything in `errno` if it succeeds. -/
def read (call : ℕ) (a : Kptr) (size : ℕ) : Reply :=
  if ∀ i < size, M.readable (a + BitVec.ofNat 64 i) then
    ⟨Int.bmod size (2 ^ 32), errno call, M.bytes a size⟩
  else ⟨-1, true, []⟩

/-- How many bytes can be read before the first one that cannot. -/
def readableBytes (len : ℕ) : ℕ :=
  Nat.findGreatest (fun r => ∀ i < r, M.readable (start + BitVec.ofNat 64 i)) len

/-- A range below `len` can be read exactly if it ends before the hole. -/
theorem readable_iff {T k : ℕ} (hT : T ≤ M.readableBytes start len) (hk : T + k ≤ len) :
    (∀ i < k, M.readable (start + BitVec.ofNat 64 T + BitVec.ofNat 64 i)) ↔
      T + k ≤ M.readableBytes start len := by
  have hlt : ∀ i < M.readableBytes start len, M.readable (start + ofNat 64 i) :=
    Nat.findGreatest_spec (P := fun r => ∀ i < r, M.readable (start + ofNat 64 i))
      (Nat.zero_le len) (by simp)
  simp only [add_assoc, ← ofNat_add]
  refine ⟨fun h => Nat.le_findGreatest hk fun i hi => ?_, fun h i hi => hlt _ (by omega)⟩
  obtain hiT | hTi := Nat.lt_or_ge i T
  · exact hlt i (by omega)
  · simpa [Nat.add_sub_cancel' hTi] using h (i - T) (by omega)

theorem bytes_add (T k : ℕ) :
    M.bytes start T ++ M.bytes (start + BitVec.ofNat 64 T) k = M.bytes start (T + k) := by
  simp [bytes, List.range_add, add_assoc, ofNat_add]

/-- `peek_block` when all of the first `T` bytes, and no others, were delivered. -/
def reached (T bsize calls : ℕ) : State :=
  ⟨T, bsize, start + BitVec.ofNat 64 T, M.bytes start T, calls⟩

variable {M start errno} {T d k m calls : ℕ}

theorem readableBytes_le : M.readableBytes start len ≤ len :=
  Nat.findGreatest_le len

variable (errno calls) in
theorem read_eq (h : T + k ≤ M.readableBytes start len) :
    M.read errno calls (start + BitVec.ofNat 64 T) k =
      ⟨Int.bmod k (2 ^ 32), errno calls, M.bytes (start + BitVec.ofNat 64 T) k⟩ :=
  if_pos ((M.readable_iff start (by omega) (h.trans readableBytes_le)).2 h)

theorem loop_reached_got (hk : T + k ≤ M.readableBytes start len) (hpos : 0 < k)
    (hint : k < 2 ^ 31) (hlen : len < 2 ^ 32) :
    loop p (M.read errno) len (fuel + 1) (M.reached start T k calls) =
      loop p (M.read errno) len fuel
        (M.reached start (T + k) (nextSize p len (T + k) k) (calls + 1)) := by
  have hle := hk.trans readableBytes_le
  have hrv : Int.bmod k (2 ^ 32) = k := Int.bmod_eq_of_le (by omega) (by omega)
  rw [loop, if_pos ⟨by simp only [reached]; omega, hpos.ne'⟩]
  simp only [reached, read_eq errno calls hk, hrv, Int.natCast_pos, hpos, if_true, State.got,
    State.next, M.bytes_add, Int.toNat_natCast, BitVec.ofInt_natCast, add_assoc, ← ofNat_add,
    Nat.mod_eq_of_lt (hle.trans_lt hlen)]

theorem loop_reached_hole (hT : T ≤ M.readableBytes start len)
    (hk : M.readableBytes start len < T + k) (hk' : T + k ≤ len) (hpos : 0 < k) :
    loop p (M.read errno) len (fuel + 1) (M.reached start T k calls) =
      loop p (M.read errno) len fuel (M.reached start T (nextSize p len T k) (calls + 1)) := by
  have hread : M.read errno calls (start + ofNat 64 T) k = ⟨-1, true, []⟩ :=
    if_neg fun h => by have := (M.readable_iff start hT hk').1 h; omega
  rw [loop_hole (by simp only [reached]; omega) hpos.ne' (by simp [reached, hread])]
  simp only [reached, hread, State.next, if_pos]

theorem nextSize_words (h : T + 4 * d ≤ len) (hlen : len < 2 ^ 32) :
    nextSize .solaris len T (4 * d) = 4 * (d / 2) := by
  simp only [nextSize, if_pos]
  rw [if_neg] <;> omega

variable (M start errno fuel) in
/-- The rounds after the first one. What is left is twice the block at least, so that no block is
cut, and what has been passed over cannot be made up for by smaller blocks. -/
theorem loop_halving (hlen : len < 2 ^ 32) : ∀ (m d T calls : ℕ), d < 2 ^ m → T + 8 * d ≤ len →
    T ≤ M.readableBytes start len →
    ∃ T', loop .solaris (M.read errno) len (m + 1 + fuel) (M.reached start T (4 * d) calls) =
        some (T', M.bytes start T') ∧
      (T' = M.readableBytes start len ↔
        ∃ k, M.readableBytes start len = T + 4 * k ∧ Halved m d k) := by
  intro m
  induction m with
  | zero =>
    intro d T calls hd hT hr
    rw [Nat.add_comm]
    refine ⟨T, loop_exit fun _ => by simp only [reached]; omega, ?_⟩
    simp [Halved, eq_comm]
  | succ m ih =>
    intro d T calls hd hT hr
    rw [Nat.add_right_comm]
    obtain rfl | hpos := Nat.eq_zero_or_pos d
    · refine ⟨T, loop_exit fun _ => rfl, fun h => ⟨0, h.symm, halved_zero _ _⟩, ?_⟩
      rintro ⟨k, hk, hh⟩
      have := hh.lt
      omega
    have hd' : d / 2 < 2 ^ m := by
      rw [pow_succ] at hd
      omega
    by_cases hgot : T + 4 * d ≤ M.readableBytes start len
    · obtain ⟨T', hT', hiff⟩ := ih (d / 2) (T + 4 * d) (calls + 1) hd' (by omega) hgot
      rw [loop_reached_got hgot (by omega) (by omega) hlen, nextSize_words (by omega) hlen]
      refine ⟨T', hT', hiff.trans ⟨?_, ?_⟩⟩
      · rintro ⟨k, hk, hh⟩
        exact ⟨d + k, by omega, .inr ⟨k, rfl, hh⟩⟩
      · rintro ⟨k, hk, hh | ⟨k', rfl, hh⟩⟩
        · have := hh.lt
          obtain rfl : k = d := by omega
          exact ⟨0, hk, halved_zero _ _⟩
        · exact ⟨k', by omega, hh⟩
    · obtain ⟨T', hT', hiff⟩ := ih (d / 2) T (calls + 1) hd' (by omega) hr
      rw [loop_reached_hole hr (by omega) (by omega) (by omega), nextSize_words (by omega) hlen]
      refine ⟨T', hT', hiff.trans ⟨?_, ?_⟩⟩
      · rintro ⟨k, hk, hh⟩
        exact ⟨k, hk, .inl hh⟩
      · rintro ⟨k, hk, hh | ⟨k', rfl, hh⟩⟩
        · exact ⟨k, hk, hh⟩
        · omega

variable (M start errno fuel) in
theorem loop_second (h4 : len % 4 = 0) (hlen : len < 2 ^ 32) :
    loop .solaris (M.read errno) len (33 + fuel)
        (M.reached start 0 (nextSize .solaris len 0 len) 1) =
          some (M.readableBytes start len, M.bytes start (M.readableBytes start len)) ↔
      ∃ k, M.readableBytes start len = 4 * k ∧ Halved 32 (len / 8) k := by
  obtain ⟨T', hT', hiff⟩ := loop_halving fuel M start errno hlen 32 (len / 8) 0 1 (by omega)
    (by omega) (Nat.zero_le _)
  have hsize : nextSize .solaris len 0 len = 4 * (len / 8) := by
    obtain ⟨d, rfl⟩ := Nat.dvd_of_mod_eq_zero h4
    rw [nextSize_words (by omega) hlen]
    omega
  rw [hsize, hT']
  simp only [zero_add] at hiff
  rw [← hiff]
  constructor
  · intro h
    cases h
    rfl
  · exact fun h => by rw [h]

/-- **The bytes before the hole** are read exactly if the whole range can be, or the number of words
before the hole is such a sum. -/
theorem peek_prefix_iff (M : Memory) (errno : ℕ → Bool) (start : Kptr) {len : ℕ} (h4 : len % 4 = 0)
    (hlen : len < 2 ^ 32) (fuel : ℕ) :
    peekBlock .solaris (M.read errno) (34 + fuel) start len true =
        some (M.readableBytes start len, M.bytes start (M.readableBytes start len)) ↔
      M.readableBytes start len = len ∧ len < 2 ^ 31 ∨
        ∃ k, M.readableBytes start len = 4 * k ∧ Halved 32 (len / 8) k := by
  have hsecond := loop_second fuel M start errno h4 hlen
  have hle : M.readableBytes start len ≤ len := readableBytes_le
  have hstart : (⟨0, len, start, [], 0⟩ : State) = M.reached start 0 len 0 := by
    simp [reached, bytes]
  rw [peekBlock, if_pos rfl, hstart, show 34 + fuel = 33 + fuel + 1 by omega]
  obtain rfl | hpos := Nat.eq_zero_or_pos len
  · rw [loop_exit fun h => absurd h (lt_irrefl 0)]
    simp [reached, readableBytes]
  obtain hlt | heq := hle.lt_or_eq
  · rw [loop_reached_hole (Nat.zero_le _) (by omega) (by omega) hpos, hsecond]
    exact ⟨.inr, Or.rec (fun h => by omega) id⟩
  by_cases hint : len < 2 ^ 31
  · rw [loop_reached_got (by omega) hpos hint hlen, show 33 + fuel = 32 + fuel + 1 by omega,
      loop_exit fun h => by simp only [reached] at h; omega]
    simp only [reached, zero_add, heq, true_and, true_iff]
    exact .inl hint
  · -- The count is negative as an `int`, and `errno` decides what happens.
    have hread := read_eq errno 0 (show 0 + len ≤ M.readableBytes start len by omega)
    have hneg : (M.read errno 0 (start + ofNat 64 0) len).rv < 0 := by
      rw [hread, Int.bmod_def]
      dsimp only
      omega
    rw [loop_hole hpos hpos.ne' hneg]
    simp only [reached, hread]
    split_ifs with herrno
    · exact hsecond.trans ⟨.inr, Or.rec (fun h => absurd h.2 hint) id⟩
    · constructor
      · intro h
        have := congrArg Prod.fst (Option.some.inj h)
        dsimp only at this
        omega
      · rintro (h | ⟨k, hk, hh⟩)
        · exact absurd h.2 hint
        · have := hh.lt
          omega

/-- Three of four words can be read, which is 2 and 1 of them. -/
theorem peek_prefix_three :
    peekBlock .solaris (Memory.read ⟨fun w => w ≠ 3, fun _ => 0⟩ fun _ => false) 34 0 16 true =
      some (12, List.replicate 12 0) := by
  have hbytes : Memory.readableBytes ⟨fun w => w ≠ 3, fun _ => 0⟩ 0 16 = 12 := by decide
  have h := (peek_prefix_iff ⟨fun w => w ≠ 3, fun _ => 0⟩ (fun _ => false) 0
    (by decide : 16 % 4 = 0) (by decide) 0).2
    (.inr ⟨3, hbytes, .inr ⟨1, rfl, .inr ⟨0, rfl, halved_zero ..⟩⟩⟩)
  rw [hbytes] at h
  exact h

/-- Two of three words can be read, and `peek_block` finds one. -/
theorem peek_short :
    Memory.readableBytes ⟨fun w => w ≠ 2, fun _ => 0⟩ 0 12 = 8 ∧
      peekBlock .solaris (Memory.read ⟨fun w => w ≠ 2, fun _ => 0⟩ fun _ => false) 34 0 12 true =
        some (4, List.replicate 4 0) := by
  decide

end Memory

end Kerninst.PeekBlock
