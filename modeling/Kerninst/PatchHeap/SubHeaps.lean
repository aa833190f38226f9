import Kerninst.PatchHeap.PatchHeap
import Mathlib.Data.List.Nodup
import Mathlib.Data.List.Perm.Subperm
import Mathlib.Data.List.Range

/-!
# Sub-heaps

What the functions on sub-heaps do, on sub-heaps that are well formed (`SubOk`). A patch is taken
from the free list of one of them, or returned to one (`allocate_spec`, `deallocate_eq`). Another
sub-heap is asked for with a number of bytes that does not overflow, since the existing regions
are below `2 ^ 32` and do not overlap, and the last two have at least as many bytes
(`createSubheap_spec`).
-/

namespace Kerninst

open List
open Nat (mod_eq_of_lt succ_mul mul_le_mul_right)

variable {P : HeapPlatform}

theorem assertTrue_pos {p : Prop} [Decidable p] (h : p) : assertTrue p = .ok () := if_pos h

/-! ## Sizes -/

theorem heapSize_pos :
    ∀ ndx < 18, 64 ≤ heapSize ndx ∧ heapSize ndx ≤ 65536 ∧ heapSize ndx % 4 = 0 := by
  decide

theorem heapSizeNdx_spec {sz ndx : Nat} (h : heapSizeNdx sz = some ndx) :
    ndx < 18 ∧ sz ≤ heapSize ndx := by
  obtain ⟨hlt, hle, -⟩ := findIdx?_eq_some_iff_getElem.mp h
  refine ⟨hlt, ?_⟩
  rw [heapSize, getD_eq_getElem?_getD, getElem?_eq_getElem hlt, Option.getD_some]
  exact of_decide_eq_true hle

namespace HeapPlatform

theorem pageNumBytes_pos : 0 < P.pageNumBytes := Nat.two_pow_pos _

theorem pageNumBytes_dvd : P.pageNumBytes ∣ 2 ^ 31 :=
  Nat.pow_dvd_pow 2 (by have := P.pageBits_lt; omega)

/-- Rounding up does not overflow, if there is a number of whole pages that is enough. -/
theorem roundUp_spec {len bound : Nat} (hpage : P.pageNumBytes ∣ bound) (hbound : bound < 2 ^ 32)
    (hlen : len ≤ bound) :
    len ≤ P.roundUpToMultipleOfPageSize len ∧ P.roundUpToMultipleOfPageSize len ≤ bound ∧
      P.pageNumBytes ∣ P.roundUpToMultipleOfPageSize len := by
  have hpos := P.pageNumBytes_pos
  obtain ⟨k, rfl⟩ := hpage
  -- the bound leaves a page below `2 ^ 32`
  obtain ⟨j, hj⟩ : P.pageNumBytes ∣ 2 ^ 32 :=
    Nat.pow_dvd_pow 2 (by have := P.pageBits_lt; omega)
  have hkj : k < j := by
    rw [hj] at hbound
    exact Nat.lt_of_mul_lt_mul_left hbound
  have hnext : P.pageNumBytes * (k + 1) ≤ 2 ^ 32 := hj ▸ Nat.mul_le_mul_left _ hkj
  rw [Nat.mul_add, Nat.mul_one] at hnext
  have hsum : (len + (P.pageNumBytes - 1)) % 2 ^ 32 = len + (P.pageNumBytes - 1) :=
    mod_eq_of_lt (by omega)
  set q := (len + (P.pageNumBytes - 1)) / P.pageNumBytes with hq
  have hdiv := Nat.div_add_mod (len + (P.pageNumBytes - 1)) P.pageNumBytes
  have hmod := Nat.mod_lt (len + (P.pageNumBytes - 1)) hpos
  rw [← hq] at hdiv
  have hle : q ≤ k := by
    refine Nat.le_of_lt_succ ((Nat.div_lt_iff_lt_mul hpos).mpr ?_)
    rw [succ_mul, Nat.mul_comm k]
    omega
  have hqk : P.pageNumBytes * q ≤ P.pageNumBytes * k := Nat.mul_le_mul_left _ hle
  have heq : P.roundUpToMultipleOfPageSize len = P.pageNumBytes * q := by
    rw [roundUpToMultipleOfPageSize, hsum, ← hq, Nat.mul_comm q]
    exact mod_eq_of_lt (by omega)
  rw [heq]
  exact ⟨by omega, hqk, Nat.dvd_mul_right _ _⟩

theorem roundUp_of_dvd {len : Nat} (hpage : P.pageNumBytes ∣ len) (hlen : len < 2 ^ 32) :
    P.roundUpToMultipleOfPageSize len = len := by
  obtain ⟨hle, hge, -⟩ := roundUp_spec hpage hlen (le_refl len)
  exact le_antisymm hge hle

theorem firstNumElems_spec {ndx : Nat} (h : ndx < 18) :
    0 < P.firstNumElems (heapSize ndx) ∧ P.firstNumElems (heapSize ndx) * heapSize ndx ≤ 65536 := by
  have hall : ∀ isSparc : Bool, ∀ ndx < 18,
      let page := if isSparc then 8192 else 4096
      let n := if heapSize ndx < 1024 then page / heapSize ndx
        else if heapSize ndx < 4096 then 4 * page / heapSize ndx
        else if heapSize ndx < 16384 then 8 * page / heapSize ndx
        else 1
      0 < n ∧ n * heapSize ndx ≤ 65536 := by decide
  exact hall P.isSparc ndx h

end HeapPlatform

variable {freeList : List Nat}

namespace SubHeap

variable {sizeOfT : Nat} {allocType : AllocType} {h : SubHeap} {heaps : List SubHeap}

theorem grownNumElems_spec {n : Nat} (hpos : 0 < n) (hlt : n < 2 ^ 26) :
    n < grownNumElems n ∧ grownNumElems n ≤ 2 * n ∧ (grownNumElems n ≤ n + n / 2 ∨ n = 1) := by
  have hsum : (n + n / 2) % 2 ^ 32 = n + n / 2 := mod_eq_of_lt (by omega)
  have hone : (n + 1) % 2 ^ 32 = n + 1 := mod_eq_of_lt (by omega)
  unfold grownNumElems
  dsimp only
  split
  case isTrue hsame =>
    omega
  case isFalse => omega

/-! ## Well-formed sub-heaps -/

/-- A patch of the region. -/
def IsSlot (sizeOfT : Nat) (h : SubHeap) (a : Nat) : Prop :=
  ∃ i < h.nBasicElems, a = h.rawData + i * sizeOfT

structure SubOk (P : HeapPlatform) (sizeOfT : Nat) (allocType : AllocType) (h : SubHeap) :
    Prop where
  elems_pos : 0 < h.nBasicElems
  raw_pos : 0 < h.rawData
  fits : h.nBasicElems * sizeOfT ≤ h.actualHeapSize
  page : P.pageNumBytes ∣ h.actualHeapSize
  below : h.rawData + h.actualHeapSize ≤ 2 ^ 32
  place : ∀ i < h.actualHeapSize, P.isInNucleus (h.rawData + i) = decide (allocType = .nucleus) ∧
    P.isBelowNucleus (h.rawData + i) = decide (allocType = .below)
  free_nodup : h.freeList.Nodup
  free_slots : ∀ a ∈ h.freeList, IsSlot sizeOfT h a

variable {a : Nat}

/-- The patch is within the region. -/
theorem SubOk.slot_within (hok : SubOk P sizeOfT allocType h) (ha : IsSlot sizeOfT h a) :
    h.rawData ≤ a ∧ a + sizeOfT ≤ h.rawData + h.actualHeapSize := by
  obtain ⟨i, hi, rfl⟩ := ha
  have hle : (i + 1) * sizeOfT ≤ h.nBasicElems * sizeOfT := mul_le_mul_right _ hi
  rw [Nat.add_mul, Nat.one_mul] at hle
  have := hok.fits
  omega

/-- Two patches of a region do not overlap. -/
theorem IsSlot.apart {a b : Nat} (ha : IsSlot sizeOfT h a) (hb : IsSlot sizeOfT h b) (hne : a ≠ b) :
    a + sizeOfT ≤ b ∨ b + sizeOfT ≤ a := by
  obtain ⟨i, -, rfl⟩ := ha
  obtain ⟨j, -, rfl⟩ := hb
  obtain hlt | hlt | hlt := Nat.lt_trichotomy i j
  · have := mul_le_mul_right sizeOfT hlt
    rw [succ_mul] at this
    omega
  · exact (hne (by rw [hlt])).elim
  · have := mul_le_mul_right sizeOfT hlt
    rw [succ_mul] at this
    omega

theorem mem_slots {n rawData a : Nat} :
    a ∈ slots sizeOfT n rawData ↔ ∃ i < n, a = rawData + i * sizeOfT := by
  simp [slots, eq_comm]

theorem nodup_slots {n rawData : Nat} (hpos : 0 < sizeOfT) : (slots sizeOfT n rawData).Nodup := by
  refine Nodup.map (fun i j hij => ?_) (nodup_reverse.mpr nodup_range)
  exact Nat.eq_of_mul_eq_mul_right hpos (Nat.add_left_cancel hij)

/-! ## Functions -/

theorem belongs_of_slot (hpos : 0 < sizeOfT) (hok : SubOk P sizeOfT allocType h)
    (ha : IsSlot sizeOfT h a) : h.belongs sizeOfT a = .ok true := by
  obtain ⟨hle, hend⟩ := hok.slot_within ha
  obtain ⟨i, hi, rfl⟩ := ha
  have hdiff : h.rawData + i * sizeOfT - h.rawData = i * sizeOfT := Nat.add_sub_cancel_left ..
  have hndx : i % 2 ^ 32 = i := by
    have := hok.below
    have := Nat.le_mul_of_pos_right i hpos
    exact mod_eq_of_lt (by omega)
  have hraw := hok.raw_pos
  rw [belongs, assertTrue_pos hraw.ne', if_neg (not_lt.mpr hle), hdiff, Nat.mul_div_cancel _ hpos,
    hndx, if_pos hi, Nat.mul_mod_left, assertTrue_pos rfl]
  rfl

/-- An address outside of the region does not belong to it. -/
theorem belongs_of_outside (hpos : 0 < sizeOfT) (hok : SubOk P sizeOfT allocType h)
    (ha : a < 2 ^ 32) (hout : a < h.rawData ∨ h.rawData + h.actualHeapSize ≤ a) :
    h.belongs sizeOfT a = .ok false := by
  have hraw := hok.raw_pos
  rw [belongs, assertTrue_pos hraw.ne']
  by_cases hlt : a < h.rawData
  · rw [if_pos hlt]
    rfl
  · have hge : h.nBasicElems ≤ (a - h.rawData) / sizeOfT := by
      rw [Nat.le_div_iff_mul_le hpos]
      have := hok.fits
      omega
    have hndx : (a - h.rawData) / sizeOfT % 2 ^ 32 = (a - h.rawData) / sizeOfT := by
      have := Nat.div_le_self (a - h.rawData) sizeOfT
      exact mod_eq_of_lt (by omega)
    rw [if_neg hlt, hndx, if_neg (not_lt.mpr hge)]
    rfl

theorem SubOk.ne_zero_of_free (hok : SubOk P sizeOfT allocType h)
    (hfree : h.freeList = a :: freeList) : a ≠ 0 := by
  have hle := (hok.slot_within (hok.free_slots a (hfree ▸ mem_cons_self ..))).1
  have := hok.raw_pos
  omega

theorem allocate_of_free (hpos : 0 < sizeOfT) (hok : SubOk P sizeOfT allocType h)
    (hfree : h.freeList = a :: freeList) (heaps : List SubHeap) :
    allocate sizeOfT (h :: heaps) =
      .ok ⟨a, h.rawData, { h with freeList := freeList } :: heaps⟩ := by
  have hslot := hok.free_slots a (hfree ▸ mem_cons_self ..)
  rw [allocate, hfree]
  dsimp only
  rw [belongs_of_slot hpos hok hslot]
  rfl

/-- A patch is free. -/
def HasFree (heaps : List SubHeap) : Prop := ∃ h ∈ heaps, h.freeList ≠ []

/-- **A patch is taken** from one of the sub-heaps, unless no patch is free. -/
theorem allocate_spec (hpos : 0 < sizeOfT) (hok : ∀ h ∈ heaps, SubOk P sizeOfT allocType h) :
    (¬ HasFree heaps ∧ allocate sizeOfT heaps = .ok ⟨0, 0, heaps⟩) ∨
      ∃ pre h post a freeList, heaps = pre ++ h :: post ∧ h.freeList = a :: freeList ∧
        allocate sizeOfT heaps =
          .ok ⟨a, h.rawData, pre ++ { h with freeList := freeList } :: post⟩ := by
  induction heaps with
  | nil => exact .inl ⟨fun ⟨_, hh, _⟩ => not_mem_nil hh, rfl⟩
  | cons h heaps ih =>
    have hh := hok h (mem_cons_self ..)
    cases hfree : h.freeList with
    | nil =>
      obtain ⟨hnone, hrun⟩ | ⟨pre, h', post, a, freeList, rfl, hfree', hrun⟩ :=
        ih fun h' hh' => hok h' (mem_cons_of_mem _ hh')
      · refine .inl ⟨?_, ?_⟩
        · rintro ⟨h', hh', hne⟩
          obtain rfl | hh' := mem_cons.mp hh'
          · exact hne hfree
          · exact hnone ⟨h', hh', hne⟩
        rw [allocate, hfree]
        rw [hrun]
        rfl
      · refine .inr ⟨h :: pre, h', post, a, freeList, rfl, hfree', ?_⟩
        rw [allocate, hfree]
        rw [hrun]
        rfl
    | cons a freeList =>
      exact .inr ⟨[], h, heaps, a, freeList, rfl, hfree, allocate_of_free hpos hh hfree heaps⟩

/-- **A patch is returned** to the sub-heap that it is from. -/
theorem deallocate_eq (hpos : 0 < sizeOfT) {pre post : List SubHeap} (ha : a < 2 ^ 32)
    (hpre : ∀ h' ∈ pre, SubOk P sizeOfT allocType h' ∧
      (a < h'.rawData ∨ h'.rawData + h'.actualHeapSize ≤ a))
    (hok : SubOk P sizeOfT allocType h) (hslot : IsSlot sizeOfT h a) (hfree : a ∉ h.freeList) :
    deallocate sizeOfT a (pre ++ h :: post) =
      .ok (pre ++ { h with freeList := a :: h.freeList } :: post, h.rawData) := by
  induction pre with
  | nil =>
    have hroom : h.freeList.length < h.nBasicElems := by
      have hsub : a :: h.freeList ⊆ slots sizeOfT h.nBasicElems h.rawData := by
        intro b hb
        obtain rfl | hb := mem_cons.mp hb
        · exact mem_slots.mpr hslot
        · exact mem_slots.mpr (hok.free_slots b hb)
      have hle := ((nodup_cons.mpr ⟨hfree, hok.free_nodup⟩).subperm hsub).length_le
      rw [slots, length_map, length_reverse, length_range, length_cons] at hle
      exact hle
    rw [nil_append, deallocate, belongs_of_slot hpos hok hslot]
    dsimp only [bind, Except.bind]
    rw [if_pos rfl, assertTrue_pos hroom]
    rfl
  | cons h' pre ih =>
    obtain ⟨hok', hout⟩ := hpre h' (mem_cons_self ..)
    rw [cons_append, deallocate, belongs_of_outside hpos hok' ha hout]
    dsimp only [bind, Except.bind]
    rw [if_neg Bool.false_ne_true, ih fun h'' hh'' => hpre h'' (mem_cons_of_mem _ hh'')]
    rfl

end SubHeap

/-! ## More regions -/

namespace PatchHeap1Size

open SubHeap

variable {sizeOfT : Nat} {allocType : AllocType} {taken : List (Nat × Nat)}
  {kernelAddrs : Nat × Nat}

/-- A new sub-heap, with all its patches free, in a region that is apart from the others. -/
structure NewSubHeap (P : HeapPlatform) (taken : List (Nat × Nat)) (sizeOfT : Nat)
    (allocType : AllocType) (n : Nat) (h : SubHeap) : Prop where
  ok : SubOk P sizeOfT allocType h
  elems : h.nBasicElems = n
  free : h.freeList = slots sizeOfT n h.rawData
  apart : ∀ block ∈ taken, block.1 + block.2 ≤ h.rawData ∨
    h.rawData + h.actualHeapSize ≤ block.1

variable {h : SubHeap}

theorem NewSubHeap.exists_free {n : Nat}
    (hnew : NewSubHeap P taken sizeOfT allocType n h) (hn : 0 < n) :
    ∃ a freeList, h.freeList = a :: freeList := by
  have hmem : h.rawData ∈ h.freeList := by
    rw [hnew.free]
    exact mem_slots.mpr ⟨0, hn, by omega⟩
  exact exists_cons_of_ne_nil (ne_nil_of_mem hmem)

/-- **Asking the kernel.** `bound` is a number of whole pages that would be enough. -/
theorem createSubheap_spec (P : HeapPlatform) (taken : List (Nat × Nat)) (kernelAddrs : Nat × Nat)
    (allocType : AllocType) {n bound : Nat} (hpos : 0 < sizeOfT) (hn : 0 < n)
    (hpage : P.pageNumBytes ∣ bound) (hbound : bound < 2 ^ 32) (hle : n * sizeOfT ≤ bound) :
    (createSubheap P taken kernelAddrs sizeOfT allocType n = .error .kernel ∧
        ¬ NoMemory kernelAddrs) ∨
      (createSubheap P taken kernelAddrs sizeOfT allocType n = .ok none ∧ NoMemory kernelAddrs) ∨
      ∃ h, createSubheap P taken kernelAddrs sizeOfT allocType n = .ok (some h) ∧
        NewSubHeap P taken sizeOfT allocType n h ∧ ¬ NoMemory kernelAddrs := by
  have hmod : n * sizeOfT % 2 ^ 32 = n * sizeOfT := mod_eq_of_lt (by omega)
  obtain ⟨hfits, hle', hdvd⟩ := P.roundUp_spec hpage hbound hle
  unfold createSubheap
  dsimp only
  rw [hmod]
  split
  case isTrue hzero => exact .inr (.inl ⟨rfl, hzero⟩)
  case isFalse hnonzero =>
    split
    case isTrue hpromised =>
      obtain ⟨hbelow, hapart, hplace⟩ := hpromised
      have hraw : kernelAddrs.1 ≠ 0 := fun h => hnonzero (.inl h)
      have hround := P.roundUp_of_dvd hdvd (hle'.trans_lt hbound)
      refine .inr (.inr ⟨⟨n, kernelAddrs.1, slots sizeOfT n kernelAddrs.1,
        P.roundUpToMultipleOfPageSize (n * sizeOfT)⟩, ?_, ?_, hnonzero⟩)
      · rw [SubHeap.create, assertTrue_pos hraw, hmod, assertTrue_pos hfits,
          assertTrue_pos hround.symm]
        rfl
      · exact ⟨⟨hn, Nat.pos_of_ne_zero hraw, hfits, hdvd, hbelow, hplace, nodup_slots hpos,
          fun a ha => mem_slots.mp ha⟩, rfl, rfl, hapart⟩
    case isFalse => exact .inl ⟨rfl, hnonzero⟩

/-- How sub-heaps have grown. -/
def Grown (sizeOfT : Nat) : List SubHeap → Prop
  | [] => False
  | [h] => h.nBasicElems * sizeOfT ≤ 65536
  | h :: h' :: _ => h.nBasicElems ≤ 2 * h'.nBasicElems

/-- Well-formed heaps of one size. -/
structure HeapOk (P : HeapPlatform) (taken : List (Nat × Nat)) (H : PatchHeap1Size) : Prop where
  size : 64 ≤ H.sizeOfT ∧ H.sizeOfT ≤ 65536
  subs : ∀ h ∈ H.heaps, SubOk P H.sizeOfT H.allocType h
  grown : Grown H.sizeOfT H.heaps
  regions : (H.heaps.map rawData).Nodup
  taken : ∀ h ∈ H.heaps, (h.rawData, h.actualHeapSize) ∈ taken

/-- Two regions do not overlap. -/
def BlocksApart (b c : Nat × Nat) : Prop := b.1 + b.2 ≤ c.1 ∨ c.1 + c.2 ≤ b.1

instance : Std.Symm BlocksApart := ⟨fun _ _ h => h.symm⟩

/-- The regions that the kernel has returned. -/
def Apart (taken : List (Nat × Nat)) : Prop := taken.Pairwise BlocksApart

/-- Sub-heaps and regions, with one more or not. -/
def Added (taken : List (Nat × Nat)) (heaps : List SubHeap) (taken' : List (Nat × Nat))
    (heaps' : List SubHeap) : Prop :=
  (taken' = taken ∧ heaps' = heaps) ∨
    ∃ h, taken' = (h.rawData, h.actualHeapSize) :: taken ∧ heaps' = h :: heaps ∧
      ∀ block ∈ taken, BlocksApart block (h.rawData, h.actualHeapSize)

theorem Apart.added (h : Apart taken) {heaps heaps' : List SubHeap} {taken' : List (Nat × Nat)}
    (hadded : Added taken heaps taken' heaps') : Apart taken' := by
  obtain ⟨rfl, -⟩ | ⟨h', rfl, -, hapart⟩ := hadded
  · exact h
  · exact pairwise_cons.mpr ⟨fun block hb => (hapart block hb).symm, h⟩

/-- The first sub-heap. -/
theorem HeapOk.first {n : Nat} (hsize : 64 ≤ sizeOfT ∧ sizeOfT ≤ 65536)
    (hnew : NewSubHeap P taken sizeOfT allocType n h) (hn : n * sizeOfT ≤ 65536) :
    HeapOk P ((h.rawData, h.actualHeapSize) :: taken) ⟨sizeOfT, allocType, [h]⟩ where
  size := hsize
  subs := forall_mem_singleton.mpr hnew.ok
  grown := (hnew.elems ▸ hn : h.nBasicElems * sizeOfT ≤ 65536)
  regions := nodup_singleton _
  taken := forall_mem_singleton.mpr (mem_cons_self ..)

variable {H : PatchHeap1Size}

section Heap

variable (hok : HeapOk P taken H)
include hok

/-- One more sub-heap. -/
theorem HeapOk.cons {n : Nat}
    (hnew : NewSubHeap P taken H.sizeOfT H.allocType n h)
    (hgrown : ∀ h' heaps, H.heaps = h' :: heaps → n ≤ 2 * h'.nBasicElems) :
    HeapOk P ((h.rawData, h.actualHeapSize) :: taken) { H with heaps := h :: H.heaps } where
  size := hok.size
  subs := forall_mem_cons.mpr ⟨hnew.ok, hok.subs⟩
  grown := by
    cases hheaps : H.heaps with
    | nil =>
      have := hok.grown
      rw [hheaps] at this
      exact this.elim
    | cons h' heaps =>
      change h.nBasicElems ≤ 2 * h'.nBasicElems
      rw [hnew.elems]
      exact hgrown h' heaps hheaps
  regions := by
    refine nodup_cons.mpr ⟨fun hmem => ?_, hok.regions⟩
    -- two regions that start at the same address overlap
    obtain ⟨h', hh', hraw⟩ := mem_map.mp hmem
    have hapart := hnew.apart _ (hok.taken h' hh')
    have hpos := (hok.subs h' hh').elems_pos
    have hpos' := hnew.ok.elems_pos
    have hfits := (hok.subs h' hh').fits
    have hfits' := hnew.ok.fits
    have h₁ := mul_le_mul_right H.sizeOfT hpos
    have h₂ := mul_le_mul_right H.sizeOfT hpos'
    have hsize := hok.size.1
    omega
  taken := forall_mem_cons.mpr
    ⟨mem_cons_self .., fun h' hh' => mem_cons_of_mem _ (hok.taken h' hh')⟩

/-- A free list is changed. -/
theorem HeapOk.replace {pre post : List SubHeap}
    (hheaps : H.heaps = pre ++ h :: post) (hnodup : freeList.Nodup)
    (hslots : ∀ a ∈ freeList, IsSlot H.sizeOfT h a) :
    HeapOk P taken { H with heaps := pre ++ { h with freeList := freeList } :: post } := by
  have hh := hok.subs h (hheaps ▸ mem_append_right _ (mem_cons_self ..))
  have htaken := hok.taken h (hheaps ▸ mem_append_right _ (mem_cons_self ..))
  have hothers : ∀ h' ∈ pre ++ { h with freeList := freeList } :: post,
      h' = { h with freeList := freeList } ∨ h' ∈ H.heaps := by
    intro h' hh'
    rw [hheaps]
    obtain hh' | hh' := mem_append.mp hh'
    · exact .inr (mem_append_left _ hh')
    · obtain rfl | hh' := mem_cons.mp hh'
      · exact .inl rfl
      · exact .inr (mem_append_right _ (mem_cons_of_mem _ hh'))
  refine ⟨hok.size, fun h' hh' => ?_, ?_, ?_, fun h' hh' => ?_⟩
  · obtain rfl | hh' := hothers h' hh'
    · exact { hh with free_nodup := hnodup, free_slots := hslots }
    · exact hok.subs h' hh'
  · have hgrown := hok.grown
    rw [hheaps] at hgrown
    match pre, post with
    | [], [] | [], _ :: _ | [_], _ | _ :: _ :: _, _ => exact hgrown
  · have hregions := hok.regions
    rw [hheaps, map_append, map_cons] at hregions
    rw [map_append, map_cons]
    exact hregions
  · obtain rfl | hh' := hothers h' hh'
    · exact htaken
    · exact hok.taken h' hh'

/-- The bytes of another sub-heap fit into whole pages below `2 ^ 32`. -/
theorem HeapOk.bound (hapart : Apart taken)
    {heaps : List SubHeap} (hheaps : H.heaps = h :: heaps) :
    0 < grownNumElems h.nBasicElems ∧ grownNumElems h.nBasicElems ≤ 2 * h.nBasicElems ∧
      ∃ bound, P.pageNumBytes ∣ bound ∧ bound < 2 ^ 32 ∧
        grownNumElems h.nBasicElems * H.sizeOfT ≤ bound := by
  have hh := hok.subs h (hheaps ▸ mem_cons_self ..)
  have hfits := hh.fits
  have hbelow := hh.below
  have hsmall : h.nBasicElems * 64 ≤ h.nBasicElems * H.sizeOfT := Nat.mul_le_mul_left _ hok.size.1
  have hraw := hh.raw_pos
  obtain ⟨hgt, hle, hhalf⟩ := grownNumElems_spec hh.elems_pos (by omega)
  refine ⟨by omega, hle, ?_⟩
  cases heaps with
  | nil =>
    have hgrown : h.nBasicElems * H.sizeOfT ≤ 65536 := by
      have := hok.grown
      rwa [hheaps] at this
    refine ⟨2 ^ 31, P.pageNumBytes_dvd, by decide, ?_⟩
    calc grownNumElems h.nBasicElems * H.sizeOfT ≤ 2 * h.nBasicElems * H.sizeOfT :=
          mul_le_mul_right _ hle
      _ = 2 * (h.nBasicElems * H.sizeOfT) := Nat.mul_assoc ..
      _ ≤ 2 ^ 31 := by omega
  | cons h' heaps =>
    have hh' := hok.subs h' (hheaps ▸ mem_cons_of_mem _ (mem_cons_self ..))
    have hgrown : h.nBasicElems ≤ 2 * h'.nBasicElems := by
      have := hok.grown
      rwa [hheaps] at this
    have hraw' := hh'.raw_pos
    have hbelow' := hh'.below
    have hne : (h.rawData, h.actualHeapSize) ≠ (h'.rawData, h'.actualHeapSize) := by
      intro heq
      have hnodup := hok.regions
      rw [hheaps, map_cons, map_cons, (Prod.mk.inj heq).1] at hnodup
      exact (nodup_cons.mp hnodup).1 (mem_cons_self ..)
    have hblocks : BlocksApart (h.rawData, h.actualHeapSize) (h'.rawData, h'.actualHeapSize) :=
      hapart.forall (hok.taken h (hheaps ▸ mem_cons_self ..))
        (hok.taken h' (hheaps ▸ mem_cons_of_mem _ (mem_cons_self ..))) hne
    have hsum : h.actualHeapSize + h'.actualHeapSize < 2 ^ 32 := by
      obtain hb | hb := hblocks
      · omega
      · omega
    refine ⟨h.actualHeapSize + h'.actualHeapSize, Nat.dvd_add hh.page hh'.page, hsum, ?_⟩
    have helems : grownNumElems h.nBasicElems ≤ h.nBasicElems + h'.nBasicElems := by
      omega
    calc grownNumElems h.nBasicElems * H.sizeOfT ≤
          (h.nBasicElems + h'.nBasicElems) * H.sizeOfT := mul_le_mul_right _ helems
      _ = h.nBasicElems * H.sizeOfT + h'.nBasicElems * H.sizeOfT := Nat.add_mul ..
      _ ≤ h.actualHeapSize + h'.actualHeapSize := Nat.add_le_add hfits hh'.fits

/-- **An allocation**: the kernel breaks its promise, or there is no memory, or a patch is taken,
possibly from a new sub-heap. -/
theorem HeapOk.alloc_spec (kernelAddrs : Nat × Nat) (hapart : Apart taken) :
    (H.alloc P taken kernelAddrs = .error .kernel ∧ ¬ NoMemory kernelAddrs) ∨
      (NoMemory kernelAddrs ∧ ¬ HasFree H.heaps ∧
        H.alloc P taken kernelAddrs = .ok (⟨0, 0, H.heaps⟩, taken)) ∨
      ∃ taken' heaps pre h post a freeList, Added taken H.heaps taken' heaps ∧
        HeapOk P taken' { H with heaps := heaps } ∧ heaps = pre ++ h :: post ∧
        h.freeList = a :: freeList ∧ (NoMemory kernelAddrs → HasFree H.heaps) ∧
        H.alloc P taken kernelAddrs =
          .ok (⟨a, h.rawData, pre ++ { h with freeList := freeList } :: post⟩, taken') := by
  have hpos : 0 < H.sizeOfT := by
    have := hok.size.1
    omega
  cases hheaps : H.heaps with
  | nil =>
    have := hok.grown
    rw [hheaps] at this
    exact this.elim
  | cons nextHeap heaps =>
    rw [← hheaps]
    obtain ⟨hnone, hrun⟩ | ⟨pre, h, post, a, freeList, heq, hfree, hrun⟩ :=
      allocate_spec hpos hok.subs
    · -- no patch is free
      obtain ⟨hn, hn', bound, hpage, hbound, hle⟩ := hok.bound hapart hheaps
      have hgrow : H.alloc P taken kernelAddrs =
          grow P taken kernelAddrs H nextHeap.nBasicElems := by
        rw [PatchHeap1Size.alloc, hheaps]
        dsimp only
        rw [← hheaps, hrun]
        rfl
      rw [hgrow, grow]
      obtain ⟨hcreate, hnonzero⟩ | ⟨hcreate, hzero⟩ | ⟨h, hcreate, hnew, hnonzero⟩ :=
        createSubheap_spec P taken kernelAddrs H.allocType hpos hn hpage hbound hle
      · rw [hcreate]
        exact .inl ⟨rfl, hnonzero⟩
      · rw [hcreate]
        exact .inr (.inl ⟨hzero, hnone, rfl⟩)
      · obtain ⟨a, freeList, hfree⟩ := hnew.exists_free hn
        refine .inr (.inr ⟨(h.rawData, h.actualHeapSize) :: taken, h :: H.heaps, [], h, H.heaps, a,
          freeList, .inr ⟨h, rfl, rfl, hnew.apart⟩, hok.cons hnew ?_, rfl, hfree,
          fun h0 => (hnonzero h0).elim, ?_⟩)
        · intro h' heaps' heq
          obtain ⟨rfl, -⟩ := cons.inj (hheaps.symm.trans heq)
          exact hn'
        · rw [hcreate]
          dsimp only [bind, Except.bind]
          rw [allocate_of_free hpos hnew.ok hfree]
          dsimp only
          rw [assertTrue_pos (hnew.ok.ne_zero_of_free hfree)]
          rfl
    · have hmem : h ∈ H.heaps := heq ▸ mem_append_right _ (mem_cons_self ..)
      have hh := hok.subs h hmem
      refine .inr (.inr ⟨taken, H.heaps, pre, h, post, a, freeList, .inl ⟨rfl, rfl⟩, hok, heq,
        hfree, fun _ => ⟨h, hmem, hfree ▸ cons_ne_nil a freeList⟩, ?_⟩)
      rw [PatchHeap1Size.alloc, hheaps]
      dsimp only
      rw [← hheaps, hrun]
      dsimp only [bind, Except.bind]
      rw [if_neg (hh.ne_zero_of_free hfree)]
      rfl

end Heap

end PatchHeap1Size

end Kerninst
