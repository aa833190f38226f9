import Kerninst.Lib.Checked
import Mathlib.Data.List.Sort

/-!
# The buddy heap

`HomogenousBlockHeap` hands out blocks of `2 ^ level` items, and has a list of free blocks for each
level. For `2 ^ n` items there are `n` lists. The highest one is for half of the items, so **the
initial size can never be allocated** (`alloc_full_eq_none`). When blocks are merged, the buddy of a
block is looked for at twice its distance, and what is between the two may be in use
(`alloc_overlapping`).
-/

namespace Kerninst

open List Function

/-- `lg2(roundUpToPowerOf2(num))`. Rounding up does not end for a number above `2 ^ 31`. -/
def lgRoundedUp (num : Nat) : Option Nat := (range 32).find? fun i => num ≤ 2 ^ i

/-- A heap with `n` free lists. Addresses count items. -/
structure BlockHeap (n : Nat) where
  rawData : Nat
  freeLists : Fin n → List Nat

namespace BlockHeap

variable {n : Nat}

/-- Indexing the free lists is checked. -/
def level? (n level : Nat) : Option (Fin n) := if h : level < n then some ⟨level, h⟩ else none

/-- All of `rawData` is one block, on the highest list. -/
def create (n rawData : Nat) : Option (BlockHeap n) := do
  check (rawData ≠ 0)
  let top ← level? n (n - 1)
  pure ⟨rawData, fun level => if level = top then [rawData] else []⟩

section

variable (h : BlockHeap n)

/-- The difference of the pointers is cut to 32 bits. -/
def addressBelongsToHeap (freeme : Nat) : Bool :=
  h.rawData ≤ freeme && (freeme - h.rawData) % 2 ^ 32 < 2 ^ (n - 1)

/-- The number of an item of the heap. -/
def getBlockNum (freeme : Nat) : Option Nat := do
  check (h.addressBelongsToHeap freeme)
  pure ((freeme - h.rawData) % 2 ^ 32)

/-- Change the free list of a level. -/
def put (level : Fin n) (l : List Nat) : BlockHeap n :=
  { h with freeLists := update h.freeLists level l }

end

/-- Is there a block at this level, after one of the next level is split in half? The first argument
is at least the number of levels above. -/
def obtainFreeBySplittingHigherLevel : Nat → Fin n → BlockHeap n → Option (Bool × BlockHeap n)
  | 0, _, h => some (false, h)
  | fuel + 1, level, h =>
    match level? n (level + 1) with
    | none => some (false, h)
    | some next => do
      let (ok, h) ← if h.freeLists next = [] then obtainFreeBySplittingHigherLevel fuel next h
        else some (true, h)
      if ok then do
        let piece0 ← (h.freeLists next).getLast?
        let piece1 := piece0 + 2 ^ level.val
        let _ ← h.getBlockNum piece0
        let _ ← h.getBlockNum piece1
        let l := h.freeLists level ++ [piece0, piece1]
        check (l.length ≤ 2 ^ (n - level - 1))
        pure (true, (h.put next (h.freeLists next).dropLast).put level l)
      else pure (false, h)

/-- The loop over the sorted free list of the level below `level`: the merged blocks, and what is
left of the list. -/
def coalesce (h : BlockHeap n) (level : Nat) : Nat → Nat → List Nat → Option (List Nat × List Nat)
  | 0, _, smaller => some ([], smaller)
  | fuel + 1, lcv, smaller =>
    if lcv + 1 < smaller.length then do
      let block ← smaller[lcv]?
      let blockNum ← h.getBlockNum block
      if blockNum % 2 ^ (level + 1) = 0 ∧ smaller[lcv + 1]? = some (block + 2 ^ level) then do
        -- the last two entries take the places of the two
        let last := smaller.length - 1
        let moved := (smaller.set lcv (smaller.getD (last - 1) 0)).set (lcv + 1)
          (smaller.getD last 0)
        let (merged, rest) ← coalesce h level fuel lcv (moved.take (last - 1))
        pure (block :: merged, rest)
      else coalesce h level fuel (lcv + 1) smaller
    else some ([], smaller)

/-- Is there a block at this level, after blocks of the levels below are merged? -/
def obtainFreeByCoalescingLowerLevel : Nat → BlockHeap n → Option (Bool × BlockHeap n)
  | 0, h => some (false, h)
  | level + 1, h => do
    let (_, h) ← obtainFreeByCoalescingLowerLevel level h
    let lower ← level? n level
    let upper ← level? n (level + 1)
    if (h.freeLists lower).length < 2 then pure (false, h) else do
      let smaller := (h.freeLists lower).insertionSort (· ≤ ·)
      let (merged, rest) ← h.coalesce (level + 1) smaller.length 0 smaller
      pure (!merged.isEmpty, (h.put lower rest).put upper (h.freeLists upper ++ merged))

/-- A block of this heap, if there is one. -/
def allocateHere (level : Fin n) (h : BlockHeap n) : Option (Option Nat × BlockHeap n) := do
  let (ok, h) ← if h.freeLists level ≠ [] then some (true, h) else do
    let (ok, h) ← obtainFreeBySplittingHigherLevel n level h
    if ok then pure (true, h) else obtainFreeByCoalescingLowerLevel level h
  if ok then do
    let result ← (h.freeLists level).getLast?
    let _ ← h.getBlockNum result
    pure (some result, h.put level (h.freeLists level).dropLast)
  else pure (none, h)

/-- The heap and those after it are tried in turn. The last one makes a further heap, for twice its
base blocks, which has as many levels. -/
def allocate (newData : Nat) (level : Fin n) :
    List (BlockHeap n) → Option (Nat × List (BlockHeap n))
  | [] => do
    let (result, h) ← (create n newData).bind (allocateHere level)
    result.map (·, [h])
  | h :: nextHeap => do
    let (result, h) ← h.allocateHere level
    match result with
    | some result => pure (result, h :: nextHeap)
    | none => (allocate newData level nextHeap).map fun r => (r.1, h :: r.2)

/-- `newData` is where a further heap is put, if one is made. -/
def alloc (newData : Nat) (heaps : List (BlockHeap n)) (nBlocks : Nat) :
    Option (Nat × List (BlockHeap n)) := do
  let level ← (lgRoundedUp nBlocks).bind (level? n)
  allocate newData level heaps

/-- A block goes back to the heap that it belongs to. Nothing is done about `NULL`. -/
def free (freeme nBlocks : Nat) : List (BlockHeap n) → Option (List (BlockHeap n))
  | [] => none
  | h :: nextHeap =>
    if freeme = 0 then some (h :: nextHeap)
    else if h.addressBelongsToHeap freeme then do
      let lgnBlocks ← lgRoundedUp nBlocks
      let blockNum ← h.getBlockNum freeme
      check (blockNum % 2 ^ lgnBlocks = 0)
      let level ← level? n lgnBlocks
      pure (h.put level (h.freeLists level ++ [freeme]) :: nextHeap)
    else (free freeme nBlocks nextHeap).map (h :: ·)

/-- What is asked of the heap, and where a further one would be put. -/
inductive Op
  | alloc (nBlocks newData : Nat)
  | free (freeme nBlocks : Nat)

/-- The heaps, and the blocks in use. -/
abbrev State (n : Nat) := List (BlockHeap n) × List (Nat × Nat)

/-- The blocks in use are those that were allocated and not freed. -/
def step (s : State n) : Op → Option (State n)
  | .alloc nBlocks newData =>
    (alloc newData s.1 nBlocks).map fun r => (r.2, (r.1, nBlocks) :: s.2)
  | .free freeme nBlocks =>
    (free freeme nBlocks s.1).map fun heaps => (heaps, s.2.erase (freeme, nBlocks))

/-- Some calls on a new heap. -/
def run (n rawData : Nat) (ops : List Op) : Option (State n) := do
  let h ← create n rawData
  ops.foldlM step ([h], [])

/-- **The initial size can never be allocated**, whatever was allocated and freed before. -/
theorem alloc_full_eq_none (total rawData newData : Nat) (ops : List Op) :
    ((lgRoundedUp total).bind fun n => (run n rawData ops).bind fun s =>
      (alloc newData s.1 total).map Prod.fst) = none := by
  cases hn : lgRoundedUp total with
  | none => rfl
  | some n =>
    have hlevel : level? n n = none := dif_neg (lt_irrefl n)
    simp [alloc, hn, hlevel]

/-- A heap of eight items: items 0 and 2 are free and become a block of two items, with item 1 in
use. The initial size cannot be allocated from the start. -/
theorem alloc_overlapping : lgRoundedUp 8 = some 3 ∧
    (run 3 16 [.alloc 1 32, .alloc 1 32, .alloc 1 32, .alloc 1 32, .free 16 1, .free 18 1,
      .alloc 2 32]).map Prod.snd = some [(16, 2), (17, 1), (19, 1)] ∧
    run 3 16 [.alloc 8 32] = none := by
  refine ⟨by decide, by decide, rfl⟩

end BlockHeap

end Kerninst
