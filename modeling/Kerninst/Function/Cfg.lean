import Mathlib.Data.List.Count

/-!
# Control-flow graphs of kernel functions

A function is a vector of basic blocks, each with the ids of its successors and
predecessors, and an entry block. A successor is a block of the function or one of
the pseudo-blocks of `basicblock.h`: the exit by an interprocedural branch, the
exit by a return, or "unanalyzable". The pseudo-blocks have 16-bit ids from the top
of the range (`(bbid_t)-3`, `-4`, `-5`), and the edge-count code adds a dummy entry
block (`(bbid_t)-1`); here they are constructors of the type of ids.
-/

namespace Kerninst

/-- The pseudo-blocks that have a count of their own. -/
inductive SpecialId
  | dummyEntry
  | interProcBranchExit
  | xExit
deriving DecidableEq, Repr

/-- `bbid_t` -/
inductive BBId
  | reg (n : Nat)
  | special (s : SpecialId)
  | unanalyzable
deriving DecidableEq, Repr

structure BasicBlock where
  succs : List BBId
  preds : List BBId
deriving DecidableEq, Repr

/-- The graph of a function. -/
structure Cfg where
  blocks : List BasicBlock
  entryBB : Nat
  entry_lt : entryBB < blocks.length

namespace Cfg

def numBBs (fn : Cfg) : Nat := fn.blocks.length

def getBasicBlockFromId (fn : Cfg) (n : Nat) : Option BasicBlock := fn.blocks[n]?

variable {fn : Cfg}

theorem getBasicBlockFromId_eq_some {n : Nat} (hn : n < fn.numBBs) :
    ∃ bb, fn.getBasicBlockFromId n = some bb :=
  ⟨fn.blocks.get ⟨n, hn⟩, List.getElem?_eq_getElem hn⟩

theorem lt_of_getBasicBlockFromId {n : Nat} {bb : BasicBlock}
    (h : fn.getBasicBlockFromId n = some bb) : n < fn.numBBs :=
  (List.getElem?_eq_some_iff.mp h).1

/-- The exits of a function. -/
def IsExit (s : SpecialId) : Prop := s = .interProcBranchExit ∨ s = .xExit

/-- The graphs whose edges are all known from both ends: no duplicate and no
unanalyzable successor, and predecessor lists that mirror the successor lists. -/
structure Mirrored (fn : Cfg) : Prop where
  succs_nodup : ∀ n bb, fn.getBasicBlockFromId n = some bb → bb.succs.Nodup
  succs_valid : ∀ n bb, fn.getBasicBlockFromId n = some bb → ∀ s ∈ bb.succs,
    (∃ e, IsExit e ∧ s = .special e) ∨ ∃ m < fn.numBBs, s = .reg m
  preds_valid : ∀ n bb, fn.getBasicBlockFromId n = some bb → ∀ p ∈ bb.preds,
    ∃ m < fn.numBBs, p = .reg m
  mirror : ∀ n bb m cc, fn.getBasicBlockFromId n = some bb →
    fn.getBasicBlockFromId m = some cc →
    cc.preds.count (.reg n) = bb.succs.count (.reg m)

/-- A successor has the block as its predecessor, and conversely. -/
theorem Mirrored.mem_preds_iff (h : fn.Mirrored) {n m : Nat} {bb cc : BasicBlock}
    (hn : fn.getBasicBlockFromId n = some bb) (hm : fn.getBasicBlockFromId m = some cc) :
    BBId.reg n ∈ cc.preds ↔ BBId.reg m ∈ bb.succs := by
  rw [← List.count_pos_iff, h.mirror n bb m cc hn hm, List.count_pos_iff]

end Cfg

end Kerninst
