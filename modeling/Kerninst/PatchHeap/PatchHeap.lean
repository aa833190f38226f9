import Mathlib.Algebra.Group.Nat.Defs
import Mathlib.Logic.Function.Basic

/-!
# The heap of code patches

A model of `patchHeap` and `patchHeap1Size`, from `kerninstd/patchHeap/src`, and of
`HomogenousHeapBase`, from `util/h`. Patches are allocated in 18 sizes, and in the nucleus of the
kernel, below it, or elsewhere. For each size and place there is a heap, which is a list of
*sub-heaps* with a region of memory each. When none of them has a free patch, the kernel is asked
for another region.

What the kernel answers is an argument of an allocation. An answer other than the kernel promises
ends the run, with `Stop.kernel`; this is not a failed assertion. The patches in use, all that were
ever produced, and where each was returned to, are kept for reference.

Counts and numbers of bytes are of 32 bits. Addresses are natural numbers, since regions are below
`2 ^ 32`. Sizes of pages are powers of two.
-/

namespace Kerninst

/-- Why a run ends. -/
inductive Stop
  | assertion
  | kernel
  | allocSizeTooBig
  | outOfFreeSpace
deriving DecidableEq

/-- `assert(p)` -/
def assertTrue (p : Prop) [Decidable p] : Except Stop Unit :=
  if p then .ok () else .error .assertion

/-- `ALLOC_TYPE_NUCLEUS`, `ALLOC_TYPE_BELOW_NUCLEUS` and `ALLOC_TYPE_KMEM32` -/
inductive AllocType
  | nucleus
  | below
  | kmem32
deriving DecidableEq

/-- The machine, and where its nucleus is. -/
structure HeapPlatform where
  isSparc : Bool
  pageBits : Nat
  pageBits_lt : pageBits < 32
  isInNucleus : Nat → Bool
  isBelowNucleus : Nat → Bool

namespace HeapPlatform

variable (P : HeapPlatform)

def pageNumBytes : Nat := 2 ^ P.pageBits

/-- `roundup` -/
def roundUpToMultipleOfPageSize (len : Nat) : Nat :=
  (len + (P.pageNumBytes - 1)) % 2 ^ 32 / P.pageNumBytes * P.pageNumBytes % 2 ^ 32

/-- The number of patches that a heap starts with. -/
def firstNumElems (heapElemNumBytes : Nat) : Nat :=
  let page := if P.isSparc then 8192 else 4096
  if heapElemNumBytes < 1024 then page / heapElemNumBytes
  else if heapElemNumBytes < 4096 then 4 * page / heapElemNumBytes
  else if heapElemNumBytes < 16384 then 8 * page / heapElemNumBytes
  else 1

/-- The kernel returns regions below `2 ^ 32` that do not overlap those it has already returned, and
that are in the nucleus, or below it, if and only if that was asked for. -/
def Promised (taken : List (Nat × Nat)) (allocType : AllocType) (addr nbytes : Nat) : Prop :=
  addr + nbytes ≤ 2 ^ 32 ∧
    (∀ block ∈ taken, block.1 + block.2 ≤ addr ∨ addr + nbytes ≤ block.1) ∧
    ∀ i < nbytes, P.isInNucleus (addr + i) = decide (allocType = .nucleus) ∧
      P.isBelowNucleus (addr + i) = decide (allocType = .below)

instance (taken : List (Nat × Nat)) (allocType : AllocType) (addr nbytes : Nat) :
    Decidable (P.Promised taken allocType addr nbytes) :=
  inferInstanceAs (Decidable (_ ∧ _ ∧ _))

end HeapPlatform

/-! ## Sub-heaps -/

/-- The last element of `freeList` in the source is the first one here. -/
structure SubHeap where
  nBasicElems : Nat
  rawData : Nat
  freeList : List Nat
  actualHeapSize : Nat

namespace SubHeap

/-- The patches of a region. -/
def slots (sizeOfT nBasicElems rawData : Nat) : List Nat :=
  (List.range nBasicElems).reverse.map fun i => rawData + i * sizeOfT

/-- The constructors of `HomogenousHeapBase` and of `patchHeap1Size`. -/
def create (P : HeapPlatform) (sizeOfT numPatches rawData actualHeapSize : Nat) :
    Except Stop SubHeap := do
  assertTrue (rawData ≠ 0)
  assertTrue (numPatches * sizeOfT % 2 ^ 32 ≤ actualHeapSize)
  assertTrue (actualHeapSize = P.roundUpToMultipleOfPageSize actualHeapSize)
  pure ⟨numPatches, rawData, slots sizeOfT numPatches rawData, actualHeapSize⟩

variable (sizeOfT : Nat)

/-- The index is an `unsigned`. -/
def belongs (h : SubHeap) (ptr : Nat) : Except Stop Bool := do
  assertTrue (h.rawData ≠ 0)
  if ptr < h.rawData then pure false
  else if (ptr - h.rawData) / sizeOfT % 2 ^ 32 < h.nBasicElems then do
    assertTrue ((ptr - h.rawData) % sizeOfT = 0)
    pure true
  else pure false

/-- A patch, the region that it is from, and the sub-heaps without it. The patch is 0 if there is
none. -/
structure Allocated where
  patch : Nat
  region : Nat
  heaps : List SubHeap

def allocate : List SubHeap → Except Stop Allocated
  | [] => .ok ⟨0, 0, []⟩
  | h :: heaps =>
    match h.freeList with
    | [] => do
      let r ← allocate heaps
      pure { r with heaps := h :: r.heaps }
    | result :: freeList => do
      let b ← h.belongs sizeOfT result
      assertTrue (b = true)
      pure ⟨result, h.rawData, { h with freeList := freeList } :: heaps⟩

/-- The sub-heaps with the patch, and the region that it is returned to. The array of free patches
has as many elements as there are patches. -/
def deallocate (freemedata : Nat) : List SubHeap → Except Stop (List SubHeap × Nat)
  | [] => .error .assertion
  | h :: heaps => do
    if ← h.belongs sizeOfT freemedata then do
      assertTrue (h.freeList.length < h.nBasicElems)
      pure ({ h with freeList := freemedata :: h.freeList } :: heaps, h.rawData)
    else do
      let r ← deallocate freemedata heaps
      pure (h :: r.1, r.2)

/-- The number of patches of the next sub-heap. -/
def grownNumElems (nBasicElems : Nat) : Nat :=
  let n := (nBasicElems + nBasicElems / 2) % 2 ^ 32
  if n = nBasicElems then (n + 1) % 2 ^ 32 else n

end SubHeap

/-! ## Heaps of one size -/

structure PatchHeap1Size where
  sizeOfT : Nat
  allocType : AllocType
  heaps : List SubHeap

namespace PatchHeap1Size

/-- The kernel returns two addresses, and 0 if there is no memory. -/
abbrev NoMemory (kernelAddrs : Nat × Nat) : Prop := kernelAddrs.1 = 0 ∨ kernelAddrs.2 = 0

/-- `create_subheap`, which returns `NULL` if there is no memory. -/
def createSubheap (P : HeapPlatform) (taken : List (Nat × Nat)) (kernelAddrs : Nat × Nat)
    (sizeOfT : Nat) (allocType : AllocType) (numPatches : Nat) : Except Stop (Option SubHeap) :=
  let nbytes := P.roundUpToMultipleOfPageSize (numPatches * sizeOfT % 2 ^ 32)
  if NoMemory kernelAddrs then .ok none
  else if P.Promised taken allocType kernelAddrs.1 nbytes then do
    let h ← SubHeap.create P sizeOfT numPatches kernelAddrs.1 nbytes
    pure (some h)
  else .error .kernel

/-- `alloc` when there are no free patches. The result is with the regions that the kernel has
returned by then. -/
def grow (P : HeapPlatform) (taken : List (Nat × Nat)) (kernelAddrs : Nat × Nat)
    (H : PatchHeap1Size) (nBasicElems : Nat) :
    Except Stop (SubHeap.Allocated × List (Nat × Nat)) := do
  match ← createSubheap P taken kernelAddrs H.sizeOfT H.allocType
    (SubHeap.grownNumElems nBasicElems) with
  | none => pure (⟨0, 0, H.heaps⟩, taken)
  | some newBigHeap => do
    let r ← SubHeap.allocate H.sizeOfT (newBigHeap :: H.heaps)
    assertTrue (r.patch ≠ 0)
    pure (r, (newBigHeap.rawData, newBigHeap.actualHeapSize) :: taken)

/-- `HomogenousHeapBase::alloc` -/
def alloc (P : HeapPlatform) (taken : List (Nat × Nat)) (kernelAddrs : Nat × Nat)
    (H : PatchHeap1Size) : Except Stop (SubHeap.Allocated × List (Nat × Nat)) :=
  match H.heaps with
  | [] => .error .assertion
  | nextHeap :: _ => do
    let r ← SubHeap.allocate H.sizeOfT H.heaps
    if r.patch = 0 then grow P taken kernelAddrs { H with heaps := r.heaps } nextHeap.nBasicElems
    else pure (r, taken)

/-- `HomogenousHeapBase::free` -/
def free (H : PatchHeap1Size) (item : Nat) : Except Stop (List SubHeap × Nat) :=
  if item = 0 then .ok (H.heaps, 0) else SubHeap.deallocate H.sizeOfT item H.heaps

end PatchHeap1Size

/-! ## The heap -/

/-- Without the delimiter. -/
def allHeapSizes : List Nat :=
  [64, 96, 128, 192, 256, 384, 512, 768, 960, 1024, 1536, 2048, 3072, 4096, 8192, 16384, 32768,
    65536]

/-- `lower_bound` -/
def heapSizeNdx (sz : Nat) : Option Nat := allHeapSizes.findIdx? (sz ≤ ·)

def heapSize (ndx : Nat) : Nat := allHeapSizes.getD ndx 0

/-- Where a patch comes from: the place, the index of the size, and the region. -/
structure Home where
  allocType : AllocType
  heapSizeNdx : Nat
  region : Nat
deriving DecidableEq

/-- An allocated patch, with the number of bytes that were asked for. -/
structure Patch where
  addr : Nat
  sz : Nat
  home : Home
deriving DecidableEq

structure PatchHeap where
  patchHeaps : AllocType → Nat → Option PatchHeap1Size
  allocationHasFailed : AllocType → Bool
  /-- The regions that the kernel has returned. -/
  allocatedKernelMemBlocks : List (Nat × Nat)
  live : List Patch
  produced : List Patch
  returned : List (Nat × Home)

namespace PatchHeap

def create : PatchHeap := ⟨fun _ _ => none, fun _ => false, [], [], [], []⟩

variable (P : HeapPlatform) (s : PatchHeap)

/-- One of the heaps is changed. -/
def withHeap (allocType : AllocType) (ndx : Nat) (H : PatchHeap1Size) (taken : List (Nat × Nat)) :
    PatchHeap :=
  { s with
    patchHeaps := Function.update s.patchHeaps allocType
      (Function.update (s.patchHeaps allocType) ndx (some H))
    allocatedKernelMemBlocks := taken }

/-- What `alloc_nucleus`, `alloc_below` and `alloc_nonnucleus` have in common: a patch, which is 0
if there is none, and its region. -/
def allocIn (allocType : AllocType) (ndx : Nat) (kernelAddrs : Nat × Nat) :
    Except Stop ((Nat × Nat) × PatchHeap) :=
  match s.patchHeaps allocType ndx with
  | none => do
    -- `allocateFirstTime`; the allocation that follows does not need the kernel
    assertTrue (heapSize ndx % 4 = 0)
    assertTrue (0 < P.firstNumElems (heapSize ndx))
    match ← PatchHeap1Size.createSubheap P s.allocatedKernelMemBlocks kernelAddrs (heapSize ndx)
      allocType (P.firstNumElems (heapSize ndx)) with
    | none => pure ((0, 0), s)
    | some h => do
      let H : PatchHeap1Size := ⟨heapSize ndx, allocType, [h]⟩
      let r ← H.alloc P ((h.rawData, h.actualHeapSize) :: s.allocatedKernelMemBlocks) (0, 0)
      pure ((r.1.patch, r.1.region), s.withHeap allocType ndx { H with heaps := r.1.heaps } r.2)
  | some H => do
    assertTrue (H.sizeOfT = heapSize ndx)
    let r ← H.alloc P s.allocatedKernelMemBlocks kernelAddrs
    pure ((r.1.patch, r.1.region), s.withHeap allocType ndx { H with heaps := r.1.heaps } r.2)

/-- The patch is in use. -/
def produce (sz : Nat) (allocType : AllocType) (ndx : Nat) (r : Nat × Nat) : PatchHeap :=
  { s with
    live := ⟨r.1, sz, allocType, ndx, r.2⟩ :: s.live
    produced := ⟨r.1, sz, allocType, ndx, r.2⟩ :: s.produced }

def allocNonNucleus (sz ndx : Nat) (kernelAddrs : Nat × Nat) : Except Stop PatchHeap := do
  let r ← s.allocIn P .kmem32 ndx kernelAddrs
  assertTrue (r.1.1 ≠ 0)
  pure (r.2.produce sz .kmem32 ndx r.1)

/-- An attempt that is made only if none has failed, and what is done otherwise. -/
def allocOrElse (allocType : AllocType) (sz ndx : Nat) (kernelAddrs : Nat × Nat)
    (otherwise : PatchHeap → Except Stop PatchHeap) : Except Stop PatchHeap :=
  if s.allocationHasFailed allocType then otherwise s
  else do
    let r ← s.allocIn P allocType ndx kernelAddrs
    if r.1.1 = 0 then
      otherwise { r.2 with
        allocationHasFailed := Function.update r.2.allocationHasFailed allocType true }
    else pure (r.2.produce sz allocType ndx r.1)

/-- What the kernel answers depends on the place. -/
def alloc (sz : Nat) (tryForNucleus : Bool) (kernelAddrs : AllocType → Nat × Nat) :
    Except Stop PatchHeap :=
  match heapSizeNdx sz with
  | none => .error .allocSizeTooBig
  | some ndx =>
    if tryForNucleus then
      s.allocOrElse P .nucleus sz ndx (kernelAddrs .nucleus) fun s =>
        s.allocOrElse P .below sz ndx (kernelAddrs .below) fun s =>
          s.allocNonNucleus P sz ndx (kernelAddrs .kmem32)
    else s.allocNonNucleus P sz ndx (kernelAddrs .kmem32)

/-- The place that an address is in. -/
def placeOf (kernelAddr : Nat) : AllocType :=
  if P.isInNucleus kernelAddr then .nucleus
  else if P.isBelowNucleus kernelAddr then .below
  else .kmem32

/-- What `free_nucleus`, `free_below` and `free_nonnucleus` have in common. -/
def freeIn (allocType : AllocType) (ndx kernelAddr : Nat) : Except Stop PatchHeap :=
  match s.patchHeaps allocType ndx with
  | none => .error .assertion
  | some H => do
    assertTrue (H.sizeOfT = heapSize ndx)
    let r ← H.free kernelAddr
    pure { s.withHeap allocType ndx { H with heaps := r.1 } s.allocatedKernelMemBlocks with
      live := s.live.filter (·.addr ≠ kernelAddr)
      returned := (kernelAddr, ⟨allocType, ndx, r.2⟩) :: s.returned }

def free (kernelAddr sz : Nat) : Except Stop PatchHeap :=
  match heapSizeNdx sz with
  | none => .error .allocSizeTooBig
  | some ndx => s.freeIn (placeOf P kernelAddr) ndx kernelAddr

/-! ## Runs -/

inductive Op
  | alloc (sz : Nat) (tryForNucleus : Bool) (kernelAddrs : AllocType → Nat × Nat)
  | free (kernelAddr sz : Nat)

def step : Op → Except Stop PatchHeap
  | .alloc sz tryForNucleus kernelAddrs => s.alloc P sz tryForNucleus kernelAddrs
  | .free kernelAddr sz => s.free P kernelAddr sz

end PatchHeap

end Kerninst
