import Kerninst.Lib.Checked
import Kerninst.Lib.Intervals

/-!
# The code of a function, in chunks

An `fnCode` is a list of chunks of code, each an interval of addresses; they are kept sorted.
Two queries on it are modelled, with iterators as indices and `end()` as the length.

* `findChunk` searches for the chunk of an address, by `equal_range` with comparisons between
  chunks and addresses. It always finds the chunk if there is one (`FnCode.findsChunk`).
* `enclosesRange` asks whether all of a range is in some chunk. It looks up the chunks of the
  first and the last address and then for gaps in between. The loop stops one chunk early: the
  gap right before the chunk of the last address is never looked at (`FnCode.LastGap`), and when
  this is the only gap the answer is wrong (`FnCode.exact_iff`).
-/

namespace Kerninst

open List Option
open BitVec (le_def lt_def ofNat toNat)

/-- `codeChunk`, without the code itself; `w` is the width of `kaddr_t`. -/
structure CodeChunk (w : Nat) where
  startAddr : BitVec w
  numBytes : BitVec 32
deriving DecidableEq, Repr

variable {w : Nat}

namespace CodeChunk

def endAddr (c : CodeChunk w) : BitVec w := c.startAddr + c.numBytes.setWidth w

def enclosesAddr (c : CodeChunk w) (addr : BitVec w) : Bool :=
  decide (c.startAddr ≤ addr) && decide (addr < c.endAddr)

/-- `chunkcmp_definitelystartchunk`, with the chunk on the left -/
def startsBefore (addr : BitVec w) (c : CodeChunk w) : Bool := decide (c.startAddr < addr)

/-- `chunkcmp_notnecessarilystartchunk`, with the chunk on the left -/
def endsBefore (addr : BitVec w) (c : CodeChunk w) : Bool := decide (c.endAddr ≤ addr)

/-- Both comparisons, with the chunk on the right -/
def startsAfter (addr : BitVec w) (c : CodeChunk w) : Bool := decide (addr < c.startAddr)

/-- The chunk as an interval. -/
def span (c : CodeChunk w) : Nat × Nat := (c.startAddr.toNat, c.endAddr.toNat)

end CodeChunk

/-! ## The queries -/

/-- The loop of `findChunk` over the `n` chunks from `iter` on: the first one that is not empty,
with an assertion on it, and `end()` if there is none. -/
def firstNonempty (chunks : List (CodeChunk w)) (ok : CodeChunk w → Bool) : Nat → Nat → Option Nat
  | 0, _ => some chunks.length
  | n + 1, iter => do
    let c ← chunks[iter]?
    if c.numBytes = 0 then firstNonempty chunks ok n (iter + 1)
    else do
      check (ok c = true)
      pure iter

def findChunk (chunks : List (CodeChunk w)) (addr : BitVec w)
    (definitelyStartOfSomeChunk : Bool) : Option Nat :=
  match chunks with
  | [c] =>
    if c.enclosesAddr addr then do
      check (definitelyStartOfSomeChunk = true → addr = c.startAddr)
      pure 0
    else pure 1
  | chunks =>
    if definitelyStartOfSomeChunk then
      let p := equalRange (CodeChunk.startsBefore addr) (CodeChunk.startsAfter addr) chunks
      firstNonempty chunks (fun c => decide (c.startAddr = addr)) (p.2 - p.1) p.1
    else
      let p := equalRange (CodeChunk.endsBefore addr) (CodeChunk.startsAfter addr) chunks
      firstNonempty chunks (fun c => c.enclosesAddr addr) (p.2 - p.1) p.1

/-- The loop of `enclosesRange`. -/
def noGaps (chunks : List (CodeChunk w)) (hiiter : Nat) : Nat → Nat → Option Bool
  | 0, _ => none
  | fuel + 1, lowiter =>
    if lowiter + 1 = hiiter then some true
    else do
      let c ← chunks[lowiter]?
      let next ← chunks[lowiter + 1]?
      check (c.startAddr < next.startAddr)
      check (c.endAddr ≤ next.startAddr)
      if c.endAddr ≠ next.startAddr then pure false else noGaps chunks hiiter fuel (lowiter + 1)

def enclosesRange (chunks : List (CodeChunk w)) (low hi : BitVec w) : Option Bool := do
  check (low ≤ hi)
  let hiiter ← findChunk chunks (hi - 1) false
  if hiiter = chunks.length then pure false
  else if low = hi then pure true
  else do
    let lowiter ← findChunk chunks low false
    if lowiter = chunks.length then pure false
    else if lowiter = hiiter then pure true
    else noGaps chunks hiiter chunks.length lowiter

/-! ## What they should answer -/

/-- Chunks that are not empty, disjoint and sorted. None of them reaches the end of memory:
its end address would be 0, and nothing is found in such a chunk (`enclosesAddr_of_end_eq_zero`). -/
structure FnCode (w : Nat) where
  chunks : List (CodeChunk w)
  nonempty : ∀ c ∈ chunks, c.startAddr < c.endAddr
  sorted : chunks.Pairwise fun c d => c.endAddr ≤ d.startAddr

namespace FnCode

def spans (fc : FnCode w) : List (Nat × Nat) := fc.chunks.map CodeChunk.span

/-- The address belongs to some chunk. -/
def Encloses (fc : FnCode w) (addr : BitVec w) : Prop := ∃ c ∈ fc.chunks, c.enclosesAddr addr = true

/-- `findChunk` finds the chunk of the address, or the end when there is none. -/
def FindsChunk (fc : FnCode w) (addr : BitVec w) : Prop :=
  ∃ i, findChunk fc.chunks addr false = some i ∧
    ((∃ c, fc.chunks[i]? = some c ∧ c.enclosesAddr addr = true) ∨
      (i = fc.chunks.length ∧ ¬ fc.Encloses addr))

/-- `enclosesRange` says whether every address of the range belongs to some chunk. -/
def RangeExact (fc : FnCode w) (low hi : BitVec w) : Prop :=
  ∃ b, enclosesRange fc.chunks low hi = some b ∧
    (b = true ↔ ∀ addr, low ≤ addr → addr < hi → fc.Encloses addr)

/-- The first and the last address of the range are in different chunks, the chunk of the last one
does not begin where the chunk before it ends, and this is the first gap of the range. -/
def LastGap (fc : FnCode w) (low hi : BitVec w) : Prop :=
  ∃ i j c d, i ≤ j ∧ fc.chunks[i]? = some c ∧ c.enclosesAddr low = true ∧
    fc.chunks[j + 1]? = some d ∧ d.enclosesAddr (hi - 1) = true ∧
    Contiguous fc.spans i j ∧ ¬ Adjacent fc.spans j

/-! ## Chunks as intervals -/

variable {fc : FnCode w} {low hi addr : BitVec w} {c : CodeChunk w}

/-- A chunk that reaches the end of the address space encloses no address. -/
theorem enclosesAddr_of_end_eq_zero (h : c.endAddr = 0) : c.enclosesAddr addr = false := by
  simp [CodeChunk.enclosesAddr, h]

theorem spans_getElem? {i : Nat} (h : fc.chunks[i]? = some c) : fc.spans[i]? = some c.span := by
  rw [spans, getElem?_map, h, map_some]

theorem enclosesAddr_iff : c.enclosesAddr addr = true ↔ addr.toNat ∈ Set.Ico c.span.1 c.span.2 := by
  simp [CodeChunk.enclosesAddr, le_def, lt_def, CodeChunk.span]

theorem encloses_iff : fc.Encloses addr ↔ ∃ s ∈ fc.spans, addr.toNat ∈ Set.Ico s.1 s.2 := by
  simp [Encloses, enclosesAddr_iff, spans]

theorem inOrder (fc : FnCode w) : InOrder fc.spans where
  nonempty := by
    simpa [spans, CodeChunk.span, lt_def] using fc.nonempty
  sorted := by
    simpa [spans, pairwise_map, CodeChunk.span, le_def] using fc.sorted

theorem toNat_sub_one (h : low < hi) : (hi - 1).toNat = hi.toNat - 1 := by
  have hlt : low.toNat < hi.toNat := BitVec.lt_def.mp h
  have hone : (1 : BitVec w).toNat = 1 := by
    have hpow : 1 < 2 ^ w := by
      omega
    exact Nat.mod_eq_of_lt hpow
  rw [BitVec.toNat_sub_of_le, hone]
  rw [le_def, hone]
  omega

/-- The range is enclosed when everything from its first to its last address is. -/
theorem enclosed_iff_covers (h : low < hi) : (∀ addr, low ≤ addr → addr < hi → fc.Encloses addr) ↔
      Covers fc.spans low.toNat (hi - 1).toNat := by
  have hlt : low.toNat < hi.toNat := BitVec.lt_def.mp h
  rw [toNat_sub_one h]
  constructor
  · rintro henc a ⟨hlow, hhi⟩
    have ha : (ofNat w a).toNat = a := by
      rw [BitVec.toNat_ofNat, Nat.mod_eq_of_lt (by omega)]
    have hmem := henc (ofNat w a) (by rw [le_def]; omega) (by rw [lt_def]; omega)
    rwa [encloses_iff, ha] at hmem
  · intro hcov a hlow hhi
    rw [lt_def] at hhi
    exact encloses_iff.mpr (hcov a.toNat ⟨hlow, by omega⟩)

/-! ## Finding a chunk -/

theorem numBytes_ne_zero (hc : c ∈ fc.chunks) : c.numBytes ≠ 0 := by
  intro h0
  have hlt := fc.nonempty c hc
  rw [CodeChunk.endAddr, h0, lt_def] at hlt
  simp at hlt

theorem partitioned_endsBefore (fc : FnCode w) (addr : BitVec w) :
    Partitioned (CodeChunk.endsBefore addr) fc.chunks := by
  refine fc.sorted.imp_of_mem fun {c d} _ hd hcd hbefore => ?_
  have hlt := fc.nonempty d hd
  simp only [CodeChunk.endsBefore, decide_eq_true_eq, le_def, lt_def] at *
  omega

theorem partitioned_startsAfter (fc : FnCode w) (addr : BitVec w) :
    Partitioned (fun c => !CodeChunk.startsAfter addr c) fc.chunks := by
  refine fc.sorted.imp_of_mem fun {c d} hc _ hcd hafter => ?_
  have hlt := fc.nonempty c hc
  simp only [CodeChunk.startsAfter, Bool.not_eq_true', decide_eq_false_iff_not, le_def, lt_def] at *
  omega

/-- The chunks that `equal_range` leaves are those that enclose the address. -/
theorem enclosesAddr_iff_between {i : Nat} (hc : fc.chunks[i]? = some c) {p : Nat × Nat}
    (hp : p = equalRange (CodeChunk.endsBefore addr) (CodeChunk.startsAfter addr) fc.chunks) :
    c.enclosesAddr addr = true ↔ p.1 ≤ i ∧ i < p.2 := by
  have hbefore := partitionPoint_iff_of_getElem? (fc.partitioned_endsBefore addr) hc
  have hafter := partitionPoint_iff_of_getElem? (fc.partitioned_startsAfter addr) hc
  rw [hp, equalRange, ← hafter, ← Nat.not_lt, ← hbefore]
  simp only [CodeChunk.enclosesAddr, CodeChunk.endsBefore, CodeChunk.startsAfter, Bool.and_eq_true,
    Bool.not_eq_true', decide_eq_true_eq, decide_eq_false_iff_not, BitVec.not_le, BitVec.not_lt]
  exact and_comm

theorem findsChunk_of_equalRange {p : Nat × Nat}
    (hp : p = equalRange (CodeChunk.endsBefore addr) (CodeChunk.startsAfter addr) fc.chunks)
    (h : findChunk fc.chunks addr false =
      firstNonempty fc.chunks (fun c => c.enclosesAddr addr) (p.2 - p.1) p.1) :
    fc.FindsChunk addr := by
  rcases Nat.lt_or_ge p.1 p.2 with hlt | hge
  · have hlen : p.2 ≤ fc.chunks.length := by
      rw [hp]
      exact partitionPoint_le (fc.partitioned_startsAfter addr)
    have hc := getElem?_eq_getElem (hlt.trans_le hlen)
    have henc := (enclosesAddr_iff_between hc hp).mpr ⟨le_rfl, hlt⟩
    refine ⟨p.1, ?_, .inl ⟨_, hc, henc⟩⟩
    obtain ⟨n, hn⟩ : ∃ n, p.2 - p.1 = n + 1 := ⟨p.2 - p.1 - 1, by omega⟩
    rw [h, hn, firstNonempty, hc, bind_eq_bind, bind_some,
      if_neg (numBytes_ne_zero (mem_of_getElem? hc)), check_pos henc]
    rfl
  · refine ⟨fc.chunks.length, ?_, .inr ⟨rfl, ?_⟩⟩
    · rw [h, Nat.sub_eq_zero_of_le hge, firstNonempty]
    · rintro ⟨c, hc, henc⟩
      obtain ⟨i, hi⟩ := mem_iff_getElem?.mp hc
      have := (enclosesAddr_iff_between hi hp).mp henc
      omega

/-- **`findChunk` is exact.** -/
theorem findsChunk (fc : FnCode w) (addr : BitVec w) : fc.FindsChunk addr := by
  rcases hchunks : fc.chunks with - | ⟨c, - | ⟨d, rest⟩⟩
  · exact findsChunk_of_equalRange rfl (by rw [hchunks]; rfl)
  · -- a single chunk is looked at without a search
    by_cases henc : c.enclosesAddr addr = true
    · refine ⟨0, ?_, .inl ⟨c, by rw [hchunks]; rfl, henc⟩⟩
      rw [hchunks, findChunk, if_pos henc, check_pos (by simp)]
      rfl
    · refine ⟨1, ?_, .inr ⟨by rw [hchunks]; rfl, ?_⟩⟩
      · rw [hchunks, findChunk, if_neg henc]
        rfl
      · rintro ⟨d, hd, henc'⟩
        rw [hchunks, mem_singleton] at hd
        exact henc (hd ▸ henc')
  · exact findsChunk_of_equalRange rfl (by rw [hchunks]; rfl)

/-! ## The range -/

theorem adjacent_iff {k : Nat} {c d : CodeChunk w} (hc : fc.chunks[k]? = some c)
    (hd : fc.chunks[k + 1]? = some d) : Adjacent fc.spans k ↔ c.endAddr = d.startAddr := by
  constructor
  · rintro ⟨s, t, hs, ht, hst⟩
    rw [spans_getElem? hc, some.injEq] at hs
    rw [spans_getElem? hd, some.injEq] at ht
    rw [← hs, ← ht] at hst
    exact BitVec.eq_of_toNat_eq hst
  · intro h
    exact ⟨_, _, spans_getElem? hc, spans_getElem? hd, congrArg toNat h⟩

/-- The loop looks for a gap up to the chunk before the last one. -/
theorem noGaps_spec {j fuel i : Nat} (hj : j + 1 < fc.chunks.length) (hij : i ≤ j)
    (hfuel : j - i < fuel) :
    ∃ b, noGaps fc.chunks (j + 1) fuel i = some b ∧ (b = true ↔ Contiguous fc.spans i j) := by
  induction fuel generalizing i with
  | zero => omega
  | succ fuel ih =>
    by_cases hlast : i = j
    · subst hlast
      exact ⟨true, by rw [noGaps, if_pos rfl], iff_of_true rfl (contiguous_self i)⟩
    · have hc := getElem?_eq_getElem (show i < fc.chunks.length by omega)
      have hd := getElem?_eq_getElem (show i + 1 < fc.chunks.length by omega)
      generalize fc.chunks[i] = c at hc
      generalize fc.chunks[i + 1] = d at hd
      have hadj := adjacent_iff hc hd
      have hlt := fc.inOrder.lt_of_getElem? (spans_getElem? hc)
      have hle := fc.inOrder.le_of_lt (spans_getElem? hc) (spans_getElem? hd) (Nat.lt_succ_self i)
      have hstart : c.startAddr < d.startAddr := BitVec.lt_def.mpr (hlt.trans_le hle)
      have hend : c.endAddr ≤ d.startAddr := BitVec.le_def.mpr hle
      rw [noGaps, if_neg (by omega), contiguous_succ_left (show i < j by omega), hadj]
      simp only [hc, hd, check_pos hstart, check_pos hend, run_do]
      by_cases hgap : c.endAddr = d.startAddr
      · rw [if_neg (not_not.mpr hgap)]
        obtain ⟨b, hb, hcont⟩ := ih (i := i + 1) (by omega) (by omega)
        exact ⟨b, hb, by rw [hcont, and_iff_right hgap]⟩
      · rw [if_pos hgap]
        exact ⟨false, rfl, iff_of_false (by decide) fun h => hgap h.1⟩

/-- Up to the search for gaps. -/
theorem enclosesRange_eq (h : low < hi) {i j : Nat}
    (hj : findChunk fc.chunks (hi - 1) false = some j)
    (hi' : findChunk fc.chunks low false = some i) :
    enclosesRange fc.chunks low hi =
      if j = fc.chunks.length ∨ i = fc.chunks.length then some false
      else if i = j then some true
      else noGaps fc.chunks j fc.chunks.length i := by
  have hle : low ≤ hi := BitVec.le_of_lt h
  have hne : low ≠ hi := BitVec.ne_of_lt h
  simp only [enclosesRange, check_pos hle, hj, hi', if_neg hne, run_do]
  by_cases hjlen : j = fc.chunks.length
  · rw [if_pos hjlen, if_pos (.inl hjlen)]
  · rw [if_neg hjlen]
    by_cases hilen : i = fc.chunks.length
    · rw [if_pos hilen, if_pos (.inr hilen)]
    · rw [if_neg hilen, if_neg (not_or.mpr ⟨hjlen, hilen⟩)]

/-- A range whose first or last address is in no chunk is not enclosed, and the answer says so. -/
theorem rangeExact_of_not_encloses (h : low < hi)
    (hout : ¬ fc.Encloses low ∨ ¬ fc.Encloses (hi - 1)) :
    fc.RangeExact low hi ∧ ¬ fc.LastGap low hi := by
  have hlt : low.toNat < hi.toNat := BitVec.lt_def.mp h
  have hlast := toNat_sub_one h
  obtain ⟨j, hj, hjcase⟩ := fc.findsChunk (hi - 1)
  obtain ⟨i, hi', hicase⟩ := fc.findsChunk low
  have hend : j = fc.chunks.length ∨ i = fc.chunks.length := by
    rcases hout with hlow | hhigh
    · rcases hicase with ⟨c, hc, henc⟩ | ⟨hlen, -⟩
      · exact absurd ⟨c, mem_of_getElem? hc, henc⟩ hlow
      · exact .inr hlen
    · rcases hjcase with ⟨c, hc, henc⟩ | ⟨hlen, -⟩
      · exact absurd ⟨c, mem_of_getElem? hc, henc⟩ hhigh
      · exact .inl hlen
  refine ⟨⟨false, by rw [enclosesRange_eq h hj hi', if_pos hend], iff_of_false (by decide) ?_⟩, ?_⟩
  · intro henc
    rcases hout with hlow | hhigh
    · exact hlow (henc low (BitVec.le_refl low) h)
    · refine hhigh (henc _ ?_ ?_)
      · rw [le_def]
        omega
      · rw [lt_def]
        omega
  · rintro ⟨i, j, c, d, -, hc, hlow, hd, hhigh, -⟩
    rcases hout with hout | hout
    · exact hout ⟨c, mem_of_getElem? hc, hlow⟩
    · exact hout ⟨d, mem_of_getElem? hd, hhigh⟩

/-- A range whose first and last address are in the chunks `i` and `j`. -/
theorem rangeExact_iff_of_encloses (h : low < hi) {i j : Nat} {c d : CodeChunk w}
    (hc : fc.chunks[i]? = some c) (hlow : c.enclosesAddr low = true) (hd : fc.chunks[j]? = some d)
    (hhigh : d.enclosesAddr (hi - 1) = true) (hi' : findChunk fc.chunks low false = some i)
    (hj : findChunk fc.chunks (hi - 1) false = some j) :
    fc.RangeExact low hi ↔ ¬ fc.LastGap low hi := by
  have hle : low.toNat ≤ (hi - 1).toNat := by
    have hlt : low.toNat < hi.toNat := BitVec.lt_def.mp h
    have := toNat_sub_one h
    omega
  rw [enclosesAddr_iff] at hlow hhigh
  have hij : i ≤ j :=
    fc.inOrder.index_le (spans_getElem? hc) (spans_getElem? hd) hlow hhigh hle
  have hjlen := (List.getElem?_eq_some_iff.mp hd).1
  have hcov := (enclosed_iff_covers h).trans
    (fc.inOrder.covers_iff_contiguous (spans_getElem? hc) (spans_getElem? hd) hlow hhigh hle)
  have heq := enclosesRange_eq h hj hi'
  rw [if_neg (by omega)] at heq
  -- the two chunks of a last gap are these two
  have hgap : fc.LastGap low hi ↔ ∃ k, j = k + 1 ∧ i ≤ k ∧ Contiguous fc.spans i k ∧
      ¬ Adjacent fc.spans k := by
    constructor
    · rintro ⟨i', k, c', d', hik, hc', hlow', hd', hhigh', hcont, hadj⟩
      rw [enclosesAddr_iff] at hlow' hhigh'
      obtain rfl : i' = i :=
        fc.inOrder.index_unique (spans_getElem? hc') (spans_getElem? hc) hlow' hlow
      obtain rfl : k + 1 = j :=
        fc.inOrder.index_unique (spans_getElem? hd') (spans_getElem? hd) hhigh' hhigh
      exact ⟨k, rfl, hik, hcont, hadj⟩
    · rintro ⟨k, rfl, hik, hcont, hadj⟩
      exact ⟨i, k, c, d, hik, hc, enclosesAddr_iff.mpr hlow, hd, enclosesAddr_iff.mpr hhigh, hcont,
        hadj⟩
  rw [hgap]
  rcases Nat.eq_or_lt_of_le hij with rfl | hlt
  · refine iff_of_true ⟨true, by rw [heq, if_pos rfl], iff_of_true rfl ?_⟩ ?_
    · exact hcov.mpr (contiguous_self i)
    · omega
  · obtain ⟨k, rfl⟩ : ∃ k, j = k + 1 := ⟨j - 1, by omega⟩
    rw [if_neg (by omega)] at heq
    have hik : i ≤ k := Nat.le_of_lt_succ hlt
    obtain ⟨b, hb, hcont⟩ := noGaps_spec hjlen hik (by omega : k - i < fc.chunks.length)
    rw [contiguous_succ_right hik, ← hcont] at hcov
    constructor
    · rintro ⟨b', hb', hexact⟩ ⟨k', hk', -, hcont', hadj⟩
      obtain rfl : k = k' := Nat.succ.inj hk'
      obtain rfl : b = b' := some.inj (hb.symm.trans (heq.symm.trans hb'))
      exact hadj (hcov.mp (hexact.mp (hcont.mpr hcont'))).2
    · intro hno
      refine ⟨b, heq.trans hb, ?_⟩
      rw [hcov]
      refine ⟨fun hbt => ⟨hbt, ?_⟩, And.left⟩
      by_contra hadj
      exact hno ⟨k, rfl, hik, hcont.mp hbt, hadj⟩

/-- **The queries are exact, unless the range has its first gap right before the chunk of its last
address.** -/
theorem exact_iff (fc : FnCode w) (addr : BitVec w) (h : low < hi) :
    (fc.FindsChunk addr ∧ fc.RangeExact low hi) ↔ ¬ fc.LastGap low hi := by
  rw [and_iff_right (fc.findsChunk addr)]
  by_cases hout : ¬ fc.Encloses low ∨ ¬ fc.Encloses (hi - 1)
  · obtain ⟨hexact, hgap⟩ := rangeExact_of_not_encloses h hout
    exact iff_of_true hexact hgap
  · obtain ⟨hlow, hhigh⟩ := not_or.mp hout
    obtain ⟨i, hi', ⟨c, hc, henc⟩ | ⟨-, hno⟩⟩ := fc.findsChunk low
    · obtain ⟨j, hj, ⟨d, hd, henc'⟩ | ⟨-, hno⟩⟩ := fc.findsChunk (hi - 1)
      · exact rangeExact_iff_of_encloses h hc henc hd henc' hi' hj
      · exact absurd hno hhigh
    · exact absurd hno hlow

/-- Two chunks with a gap of 16 bytes between them. -/
def twoChunks : FnCode 32 where
  chunks := [⟨0x1000, 16⟩, ⟨0x1020, 16⟩]
  nonempty := by decide
  sorted := by decide

/-- A range inside the first chunk. -/
theorem exact_first_chunk :
    twoChunks.FindsChunk 0x1024 ∧ twoChunks.RangeExact 0x1004 0x1010 := by
  refine (twoChunks.exact_iff 0x1024 (by decide)).mpr ?_
  rintro ⟨i, j, c, d, -, -, -, hd, hhigh, -⟩
  rcases j with - | j
  · obtain rfl := some.inj hd
    exact absurd hhigh (by decide)
  · exact absurd hd (by simp [twoChunks])

/-- The gap between the two chunks is not seen. -/
theorem not_rangeExact_twoChunks :
    enclosesRange twoChunks.chunks 0x1000 0x1030 = some true ∧
      ¬ twoChunks.Encloses 0x1010 ∧ ¬ twoChunks.RangeExact 0x1000 0x1030 := by
  have hgap : ¬ twoChunks.Encloses 0x1010 := by
    rintro ⟨c, hc, henc⟩
    revert c
    decide
  have hans : enclosesRange twoChunks.chunks 0x1000 0x1030 = some true := by decide
  refine ⟨hans, hgap, ?_⟩
  rintro ⟨b, hb, hexact⟩
  obtain rfl : true = b := mem_unique hans hb
  exact hgap (hexact.mp rfl 0x1010 (by decide) (by decide))

end FnCode

end Kerninst
