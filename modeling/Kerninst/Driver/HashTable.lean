import Kerninst.Lib.LinkedList
import Mathlib.Algebra.Group.Nat.Defs

/-!
# The driver's trap-patch hash table

The Linux kernel driver keeps its trap patches in a table that never allocates
(`kerninstdriver-linux/src/hash_table.c`): 256 preallocated elements, of which
the first `num_elems` are defined, chained into 256 bins. Removal only sets a
flag, and the element stays chained in its bin until

* an add of the same key overwrites the flagged element, or
* an add finds all 256 elements defined and *packs* the table: it moves live
  elements from the back over flagged ones at the front, then rebuilds the bins.

Element pointers are indices into `all_elems`, `NULL` is `none`, and a `void *`
datum is an `Option α`. Loops over pointers carry a bound on their rounds; `none`
as the outcome of an operation means that a loop did not stop within the bound
or that a pointer left the array.
-/

namespace Kerninst

/-- A key of the table, an `unsigned`. -/
abbrev Key := BitVec 32

/-- `ht_max_num_elems` -/
def htMaxNumElems : Nat := 256

/-- There are 256 bins. -/
def htMaskForModNumbins : BitVec 32 := 255

structure HashTableElem (α : Type) where
  theKey : Key
  /-- set by `hash_table_remove`; the element is still chained in its bin -/
  removed : Bool
  theData : Option α
  /-- the next element of the bin -/
  next : Option Nat
deriving DecidableEq

structure HashTable (α : Type) where
  allElems : Nat → HashTableElem α
  /-- the first element of each bin -/
  bins : Nat → Option Nat
  /-- how much of `allElems` is presently defined -/
  numElems : Nat

variable {α : Type}

/-! ## The hash function -/

/-- The loop of `hash_table_hash_func`: two bits of the key per round. -/
def hashLoop : Nat → BitVec 32 → Key → BitVec 32
  | 0, result, _ => result
  | rounds + 1, result, key =>
    if key = 0 then result
    else hashLoop rounds ((result <<< 1) + result + (key &&& 3)) (key >>> 2)

/-- `hash_table_hash_func`. Sixteen rounds shift out all 32 bits of a key. -/
def hashTableHashFunc (key : Key) : BitVec 32 := hashLoop 16 0 key

/-- More rounds change nothing once the key is shifted out. -/
theorem hashLoop_add (rounds extra : Nat) : ∀ (result : BitVec 32) (key : Key),
    key.toNat < 4 ^ rounds → hashLoop (rounds + extra) result key = hashLoop rounds result key := by
  induction rounds with
  | zero =>
    intro result key hk
    have h0 : key = 0 := BitVec.eq_of_toNat_eq (by simp at hk ⊢; omega)
    cases extra with
    | zero => rfl
    | succ n => simp [hashLoop, h0]
  | succ r ih =>
    intro result key hk
    rw [Nat.succ_add]
    simp only [hashLoop]
    split
    · rfl
    · refine ih _ _ ?_
      rw [BitVec.toNat_ushiftRight, Nat.shiftRight_eq_div_pow]
      omega

/-- The bound of `hashTableHashFunc` is no restriction: the source's unbounded
loop has stopped by then. -/
theorem hashTableHashFunc_eq (extra : Nat) (key : Key) :
    hashLoop (16 + extra) 0 key = hashTableHashFunc key :=
  hashLoop_add 16 extra 0 key (by have := key.isLt; omega)

/-- The bin of a key. -/
def binOf (key : Key) : Nat := (hashTableHashFunc key &&& htMaskForModNumbins).toNat

/-! ## The operations -/

def hashTableInitialize (ht : HashTable α) : HashTable α :=
  { ht with numElems := 0, bins := fun _ => none }

/-- The table with element `ndx` replaced. -/
def HashTable.setElem (ht : HashTable α) (ndx : Nat) (e : HashTableElem α) : HashTable α :=
  { ht with allElems := Function.update ht.allElems ndx e }

/-- `hash_table_keyandbin2elem`: the element of bin `bin` that holds `key`,
flagged or not. -/
def hashTableKeyandbin2elem (ht : HashTable α) (key : Key) (bin : Nat) : Option (Option Nat) :=
  chase (fun ndx => (ht.allElems ndx).next) (fun ndx => (ht.allElems ndx).theKey == key)
    (htMaxNumElems + 1) (ht.bins bin)

/-- The statements that push element `ndx` on the front of its bin and count it. -/
def HashTable.link (ht : HashTable α) (ndx : Nat) : HashTable α :=
  let bin := binOf (ht.allElems ndx).theKey
  { allElems := Function.update ht.allElems ndx { ht.allElems ndx with next := ht.bins bin }
    bins := Function.update ht.bins bin (some ndx)
    numElems := ht.numElems + 1 }

/-- The compaction loop of `hash_table_pack`, with the pointers `to` and `from`
as indices. It returns the elements and the final `to_ndx`. -/
def packLoop : Nat → (Nat → HashTableElem α) → Nat → Nat →
    Option ((Nat → HashTableElem α) × Nat)
  | 0, _, _, _ => none
  | fuel + 1, elems, toNdx, fromNdx =>
    if toNdx = fromNdx then some (elems, toNdx)
    else if !(elems toNdx).removed then packLoop fuel elems (toNdx + 1) fromNdx
    else if !(elems fromNdx).removed then
      let elems' := Function.update elems toNdx
        { theKey := (elems fromNdx).theKey, theData := (elems fromNdx).theData,
          next := none, removed := false }
      -- `from` stays where it is when `to` has just caught up with it
      if toNdx + 1 ≠ fromNdx then packLoop fuel elems' (toNdx + 1) (fromNdx - 1)
      else packLoop fuel elems' (toNdx + 1) fromNdx
    else packLoop fuel elems toNdx (fromNdx - 1)

/-- One round of the loop of `hash_table_pack` that recreates the bins. -/
def relink (ht : HashTable α) (ndx : Nat) : HashTable α :=
  if !(ht.allElems ndx).removed then ht.link ndx else ht

/-- `hash_table_pack`. On an empty table `from` starts one before the array. -/
def hashTablePack (ht : HashTable α) : Option (HashTable α) :=
  if ht.numElems = 0 then none
  else do
    let (elems, toNdx) ← packLoop (ht.numElems + 1) ht.allElems 0 (ht.numElems - 1)
    let cleared : HashTable α := { allElems := elems, bins := fun _ => none, numElems := 0 }
    pure ((List.range (toNdx + 1)).foldl relink cleared)

/-- The part of `hash_table_add` after the check for overflow. -/
def hashTableInsert (ht : HashTable α) (data : Option α) (key : Key) :
    Option (HashTable α × Int) := do
  let prev ← hashTableKeyandbin2elem ht key (binOf key)
  match prev with
  | some ndx =>
    if !(ht.allElems ndx).removed then pure (ht, -1) -- already exists
    else
      -- overwrite removed
      pure (ht.setElem ndx
        { ht.allElems ndx with theKey := key, theData := data, removed := false }, 0)
  | none =>
    let e := ht.numElems
    pure ((ht.setElem e
      { ht.allElems e with theKey := key, theData := data, removed := false }).link e, 0)

def hashTableAdd (ht : HashTable α) (data : Option α) (key : Key) :
    Option (HashTable α × Int) := do
  -- pack if necessary, and check for overflow
  if ht.numElems = htMaxNumElems then
    let ht ← hashTablePack ht
    if ht.numElems = htMaxNumElems then pure (ht, -1) else hashTableInsert ht data key
  else hashTableInsert ht data key

def hashTableRemove (ht : HashTable α) (key : Key) : Option (HashTable α × Option α) := do
  match ← hashTableKeyandbin2elem ht key (binOf key) with
  | none => pure (ht, none)
  | some ndx =>
    pure (ht.setElem ndx { ht.allElems ndx with removed := true }, (ht.allElems ndx).theData)

def hashTableLookup (ht : HashTable α) (key : Key) : Option (Option α) := do
  match ← hashTableKeyandbin2elem ht key (binOf key) with
  | none => pure none
  | some ndx => pure (ht.allElems ndx).theData

def hashTableUpdate (ht : HashTable α) (key : Key) (data : Option α) :
    Option (HashTable α × Int) := do
  match ← hashTableKeyandbin2elem ht key (binOf key) with
  | none => pure (ht, -1)
  | some ndx => pure (ht.setElem ndx { ht.allElems ndx with theData := data }, 0)

/-! ## Histories of operations -/

/-- A call of one of the table's operations. -/
inductive TableOp (α : Type)
  | init
  | add (data : Option α) (key : Key)
  | remove (key : Key)
  | lookup (key : Key)
  | update (key : Key) (data : Option α)

/-- What a call returns to its caller. -/
inductive TableReply (α : Type)
  | done
  | status (code : Int)
  | data (p : Option α)
deriving DecidableEq

def HashTable.exec (ht : HashTable α) : TableOp α → Option (HashTable α × TableReply α)
  | .init => some (hashTableInitialize ht, .done)
  | .add data key => (hashTableAdd ht data key).map fun r => (r.1, .status r.2)
  | .remove key => (hashTableRemove ht key).map fun r => (r.1, .data r.2)
  | .lookup key => (hashTableLookup ht key).map fun p => (ht, .data p)
  | .update key data => (hashTableUpdate ht key data).map fun r => (r.1, .status r.2)

/-- The final table and the replies of a history. -/
def HashTable.run (ht : HashTable α) : List (TableOp α) →
    Option (HashTable α × List (TableReply α))
  | [] => some (ht, [])
  | op :: ops => do
    let (ht', reply) ← ht.exec op
    let (ht'', replies) ← ht'.run ops
    pure (ht'', reply :: replies)

end Kerninst
