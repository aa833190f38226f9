import Kerninst.PatchHeap.SubHeaps
import Kerninst.Lib.Checked

/-!
# Patches do not overlap

Each address is a patch of at most one sub-heap, for good (`home_unique`). So a patch that is freed
returns to where it came from, and what is in use is not allocated again. In every run that frees
only patches in use, no assertion fails, and patches in use do not overlap (`run_safe`). What each
operation does to the free patches, and to what is kept for reference, is said by `Does`.
-/

namespace Kerninst

open List Function Option Except

/-- The number of bytes of a patch. -/
def Patch.length (p : Patch) : Nat := heapSize p.home.heapSizeNdx

/-- Patches without a common byte. -/
def Patch.Apart (p q : Patch) : Prop := p.addr + p.length ≤ q.addr ∨ q.addr + q.length ≤ p.addr

namespace PatchHeap

open SubHeap PatchHeap1Size

variable {P : HeapPlatform} {s : PatchHeap}

/-! ## Invariants -/

/-- A sub-heap of the heap, and where it is. -/
def Located (s : PatchHeap) (home : Home) (h : SubHeap) : Prop :=
  ∃ H, s.patchHeaps home.allocType home.heapSizeNdx = some H ∧ h ∈ H.heaps ∧
    h.rawData = home.region

/-- The heaps of all sizes and places are well formed. -/
structure Wf (P : HeapPlatform) (s : PatchHeap) : Prop where
  ndx_lt : ∀ t ndx H, s.patchHeaps t ndx = some H → ndx < 18
  size : ∀ t ndx H, s.patchHeaps t ndx = some H → H.sizeOfT = heapSize ndx ∧ H.allocType = t
  heaps : ∀ t ndx H, s.patchHeaps t ndx = some H → HeapOk P s.allocatedKernelMemBlocks H
  apart : Apart s.allocatedKernelMemBlocks
  owner : ∀ o o' h h', Located s o h → Located s o' h' → h.rawData = h'.rawData →
    o.allocType = o'.allocType ∧ o.heapSizeNdx = o'.heapSizeNdx

/-- What holds between operations. -/
structure Inv (P : HeapPlatform) (s : PatchHeap) : Prop extends Wf P s where
  live : ∀ p ∈ s.live, heapSizeNdx p.sz = some p.home.heapSizeNdx ∧ ∃ h, Located s p.home h ∧
    IsSlot (heapSize p.home.heapSizeNdx) h p.addr ∧ p.addr ∉ h.freeList
  live_produced : ∀ p ∈ s.live, p ∈ s.produced
  live_nodup : (s.live.map Patch.addr).Nodup
  produced : ∀ p ∈ s.produced, ∃ h, Located s p.home h ∧
    IsSlot (heapSize p.home.heapSizeNdx) h p.addr
  returned : ∀ r ∈ s.returned, ∃ p ∈ s.produced, p.addr = r.1 ∧ p.home = r.2

variable {o : Home}

theorem Wf.subOk (h : Wf P s) {sub : SubHeap} (hloc : Located s o sub) :
    o.heapSizeNdx < 18 ∧ SubOk P (heapSize o.heapSizeNdx) o.allocType sub ∧
      (sub.rawData, sub.actualHeapSize) ∈ s.allocatedKernelMemBlocks := by
  obtain ⟨H, hH, hmem, -⟩ := hloc
  obtain ⟨hsize, htype⟩ := h.size _ _ _ hH
  have hok := h.heaps _ _ _ hH
  exact ⟨h.ndx_lt _ _ _ hH, hsize ▸ htype ▸ hok.subs sub hmem, hok.taken sub hmem⟩

section

variable {o o' : Home} {sub sub' : SubHeap} {a b : Nat} (h : Wf P s) (hloc : Located s o sub)
  (hloc' : Located s o' sub')
include h hloc hloc'

/-- A region has one sub-heap. -/
theorem Wf.eq_of_rawData_eq (hraw : sub.rawData = sub'.rawData) : o = o' ∧ sub = sub' := by
  obtain ⟨ht, hn⟩ := h.owner o o' sub sub' hloc hloc' hraw
  obtain ⟨H, hH, hmem, hregion⟩ := hloc
  obtain ⟨H', hH', hmem', hregion'⟩ := hloc'
  obtain ⟨t, n, r⟩ := o
  obtain ⟨t', n', r'⟩ := o'
  dsimp only at ht hn hH hH' hregion hregion'
  subst ht hn
  obtain rfl := mem_unique hH hH'
  refine ⟨by rw [← hregion, ← hregion', hraw], ?_⟩
  exact inj_on_of_nodup_map (h.heaps _ _ _ hH).regions hmem hmem' hraw

theorem Wf.regions_apart (hraw : sub.rawData ≠ sub'.rawData) :
    sub.rawData + sub.actualHeapSize ≤ sub'.rawData ∨
      sub'.rawData + sub'.actualHeapSize ≤ sub.rawData :=
  h.apart.forall (h.subOk hloc).2.2 (h.subOk hloc').2.2 fun heq => hraw (Prod.mk.inj heq).1

/-- **Patches do not overlap**, unless they are one patch of one sub-heap. -/
theorem Wf.slots_apart (hslot : IsSlot (heapSize o.heapSizeNdx) sub a)
    (hslot' : IsSlot (heapSize o'.heapSizeNdx) sub' b) :
    (o = o' ∧ sub = sub' ∧ a = b) ∨ a + heapSize o.heapSizeNdx ≤ b ∨
      b + heapSize o'.heapSizeNdx ≤ a := by
  by_cases hraw : sub.rawData = sub'.rawData
  · obtain ⟨rfl, rfl⟩ := h.eq_of_rawData_eq hloc hloc' hraw
    by_cases hab : a = b
    · exact .inl ⟨rfl, rfl, hab⟩
    · exact .inr (hslot.apart hslot' hab)
  · -- regions are apart, and patches are within them
    have hapart := h.regions_apart hloc hloc' hraw
    have hwithin := (h.subOk hloc).2.1.slot_within hslot
    have hwithin' := (h.subOk hloc').2.1.slot_within hslot'
    omega

/-- **Each address is a patch of at most one sub-heap.** -/
theorem Wf.home_unique (hslot : IsSlot (heapSize o.heapSizeNdx) sub a)
    (hslot' : IsSlot (heapSize o'.heapSizeNdx) sub' a) :
    o = o' ∧ sub = sub' := by
  have hsize := (heapSize_pos _ (h.subOk hloc).1).1
  have hsize' := (heapSize_pos _ (h.subOk hloc').1).1
  obtain ⟨ho, hsub, -⟩ | hapart := h.slots_apart hloc hloc' hslot hslot'
  · exact ⟨ho, hsub⟩
  · omega

end

/-! ## Changing a heap -/

section

variable {t : AllocType} {ndx sz : Nat} {H : PatchHeap1Size} {taken : List (Nat × Nat)}

theorem patchHeaps_withHeap (t' : AllocType) (ndx' : Nat) :
    (s.withHeap t ndx H taken).patchHeaps t' ndx' =
      if t' = t ∧ ndx' = ndx then some H else s.patchHeaps t' ndx' := by
  unfold withHeap
  dsimp only
  by_cases ht : t' = t
  · subst ht
    rw [update_self]
    by_cases hn : ndx' = ndx
    · subst hn
      rw [update_self, if_pos ⟨rfl, rfl⟩]
    · rw [update_of_ne hn, if_neg fun h => hn h.2]
  · rw [update_of_ne ht, if_neg fun h => ht h.1]

theorem patchHeaps_withHeap_cases {t' : AllocType} {ndx' : Nat} {H' : PatchHeap1Size}
    (h : (s.withHeap t ndx H taken).patchHeaps t' ndx' = some H') :
    (t' = t ∧ ndx' = ndx ∧ H' = H) ∨ s.patchHeaps t' ndx' = some H' := by
  rw [patchHeaps_withHeap] at h
  split at h
  case isTrue heq => exact .inl ⟨heq.1, heq.2, (some.inj h).symm⟩
  case isFalse => exact .inr h

theorem withHeap_withHeap {H' : PatchHeap1Size} {taken' : List (Nat × Nat)} :
    (s.withHeap t ndx H taken).withHeap t ndx H' taken' = s.withHeap t ndx H' taken' := by
  unfold withHeap
  dsimp only
  rw [update_self, update_idem, update_idem]

theorem located_withHeap {sub : SubHeap} : Located (s.withHeap t ndx H taken) o sub ↔
      (o.allocType = t ∧ o.heapSizeNdx = ndx ∧ sub ∈ H.heaps ∧ sub.rawData = o.region) ∨
        (¬ (o.allocType = t ∧ o.heapSizeNdx = ndx) ∧ Located s o sub) := by
  unfold Located
  rw [patchHeaps_withHeap]
  by_cases ho : o.allocType = t ∧ o.heapSizeNdx = ndx
  · rw [if_pos ho]
    constructor
    · rintro ⟨H', hH', hmem, hraw⟩
      obtain rfl := some.inj hH'
      exact .inl ⟨ho.1, ho.2, hmem, hraw⟩
    · rintro (⟨-, -, hmem, hraw⟩ | ⟨hno, -⟩)
      · exact ⟨H, rfl, hmem, hraw⟩
      · exact (hno ho).elim
  · rw [if_neg ho]
    constructor
    · exact fun h => .inr ⟨ho, h⟩
    · rintro (⟨h₁, h₂, -⟩ | ⟨-, h⟩)
      · exact (ho ⟨h₁, h₂⟩).elim
      · exact h

/-- The sub-heaps of some size and place. -/
def subHeaps (s : PatchHeap) (t : AllocType) (ndx : Nat) : List SubHeap :=
  match s.patchHeaps t ndx with
  | none => []
  | some H => H.heaps

/-- The free patches of sub-heaps, with their regions. -/
def freeOf (heaps : List SubHeap) : List (Nat × Nat) :=
  heaps.flatMap fun sub => sub.freeList.map (Prod.mk sub.rawData)

theorem perm_freeOf {pre post : List SubHeap} {sub : SubHeap} {a : Nat} {freeList : List Nat}
    (h : sub.freeList = a :: freeList) : (freeOf (pre ++ sub :: post)).Perm
      ((sub.rawData, a) :: freeOf (pre ++ { sub with freeList := freeList } :: post)) := by
  simp only [freeOf, flatMap_append, flatMap_cons, h, map_cons]
  exact perm_middle

theorem subHeaps_withHeap (t' : AllocType) (ndx' : Nat) :
    (s.withHeap t ndx H taken).subHeaps t' ndx' =
      if t' = t ∧ ndx' = ndx then H.heaps else s.subHeaps t' ndx' := by
  unfold subHeaps
  rw [patchHeaps_withHeap]
  split_ifs <;> rfl

theorem located_of_mem {sub : SubHeap} (h : sub ∈ s.subHeaps t ndx) :
    Located s ⟨t, ndx, sub.rawData⟩ sub := by
  unfold subHeaps at h
  split at h
  case h_1 => exact (not_mem_nil h).elim
  case h_2 H hH => exact ⟨H, hH, h, rfl⟩

theorem mem_of_located {sub : SubHeap} (h : Located s o sub) :
    sub ∈ s.subHeaps o.allocType o.heapSizeNdx := by
  obtain ⟨H, hH, hmem, -⟩ := h
  unfold subHeaps
  rw [hH]
  exact hmem

theorem mem_added {heaps heaps' : List SubHeap} {taken' : List (Nat × Nat)}
    (h : Added taken heaps taken' heaps') :
    (∀ b ∈ taken, b ∈ taken') ∧ (∀ sub ∈ heaps, sub ∈ heaps') ∧ ∀ sub ∈ heaps', sub ∈ heaps ∨
        ∀ block ∈ taken, BlocksApart block (sub.rawData, sub.actualHeapSize) := by
  obtain ⟨rfl, rfl⟩ | ⟨h, rfl, rfl, hapart⟩ := h
  · exact ⟨fun _ => id, fun _ => id, fun _ => .inl⟩
  · refine ⟨fun _ => mem_cons_of_mem _, fun _ => mem_cons_of_mem _, fun sub hsub => ?_⟩
    obtain rfl | hsub := mem_cons.mp hsub
    · exact .inr hapart
    · exact .inl hsub

section Extend

variable (hndx : ndx < 18) (hsize : H.sizeOfT = heapSize ndx) (htype : H.allocType = t)
  (hok : HeapOk P taken H)
include hndx hsize htype hok

/-- What a changed heap has to satisfy. No other heap has a sub-heap in one of its regions. -/
theorem Wf.withHeap (h : Wf P s) (htaken : ∀ b ∈ s.allocatedKernelMemBlocks, b ∈ taken)
    (hapart : Apart taken)
    (howner : ∀ sub ∈ H.heaps, ∀ o sub', Located s o sub' → sub.rawData = sub'.rawData →
      t = o.allocType ∧ ndx = o.heapSizeNdx) :
    Wf P (s.withHeap t ndx H taken) := by
  refine ⟨?_, ?_, ?_, hapart, fun o o' sub sub' hloc hloc' hraw => ?_⟩
  · intro t' ndx' H' hH'
    obtain ⟨-, rfl, -⟩ | hH' := patchHeaps_withHeap_cases hH'
    · exact hndx
    · exact h.ndx_lt _ _ _ hH'
  · intro t' ndx' H' hH'
    obtain ⟨rfl, rfl, rfl⟩ | hH' := patchHeaps_withHeap_cases hH'
    · exact ⟨hsize, htype⟩
    · exact h.size _ _ _ hH'
  · intro t' ndx' H' hH'
    obtain ⟨-, -, rfl⟩ | hH' := patchHeaps_withHeap_cases hH'
    · exact hok
    · have hok' := h.heaps _ _ _ hH'
      exact { hok' with taken := fun sub hsub => htaken _ (hok'.taken sub hsub) }
  · obtain ⟨rfl, rfl, hsub, -⟩ | ⟨-, hloc⟩ := located_withHeap.mp hloc
    · obtain ⟨ht', hn', -⟩ | ⟨-, hloc'⟩ := located_withHeap.mp hloc'
      · exact ⟨ht'.symm, hn'.symm⟩
      · exact howner sub hsub o' sub' hloc' hraw
    · obtain ⟨ht', hn', hsub', -⟩ | ⟨-, hloc'⟩ := located_withHeap.mp hloc'
      · obtain ⟨ht, hn⟩ := howner sub' hsub' o sub hloc hraw.symm
        exact ⟨(ht'.trans ht).symm, (hn'.trans hn).symm⟩
      · exact h.owner o o' sub sub' hloc hloc' hraw

/-- **A region is added**, or not. -/
theorem Wf.extend (h : Wf P s)
    (hadded : Added s.allocatedKernelMemBlocks (s.subHeaps t ndx) taken H.heaps) :
    Wf P (s.withHeap t ndx H taken) ∧
      ∀ o sub, Located s o sub → Located (s.withHeap t ndx H taken) o sub := by
  obtain ⟨htaken, hold, hnew⟩ := mem_added hadded
  refine ⟨h.withHeap hndx hsize htype hok htaken (h.apart.added hadded) ?_, fun o sub hloc => ?_⟩
  · -- a sub-heap that was there, or one in a new region
    intro sub hsub o sub' hloc' hraw
    obtain hsub | happart := hnew sub hsub
    · exact h.owner _ o _ _ (located_of_mem hsub) hloc' hraw
    · obtain ⟨hndx', hok', htaken'⟩ := h.subOk hloc'
      have hsub' := hok.subs sub hsub
      have hpos := Nat.mul_le_mul_right H.sizeOfT hsub'.elems_pos
      have hfits := hsub'.fits
      have hne := hok.size.1
      have hpos' := Nat.mul_le_mul_right (heapSize o.heapSizeNdx) hok'.elems_pos
      have hfits' := hok'.fits
      have hsize' := (heapSize_pos _ hndx').1
      have hb := happart _ htaken'
      simp only [BlocksApart] at hb
      omega
  · by_cases ho : o.allocType = t ∧ o.heapSizeNdx = ndx
    · refine located_withHeap.mpr (.inl ⟨ho.1, ho.2, ?_, hloc.choose_spec.2.2⟩)
      obtain ⟨rfl, rfl⟩ := ho
      exact hold sub (mem_of_located hloc)
    · exact located_withHeap.mpr (.inr ⟨ho, hloc⟩)

theorem Inv.extend (h : Inv P s)
    (hadded : Added s.allocatedKernelMemBlocks (s.subHeaps t ndx) taken H.heaps) :
    Inv P (s.withHeap t ndx H taken) := by
  obtain ⟨hwf, hlocated⟩ := h.toWf.extend hndx hsize htype hok hadded
  refine ⟨hwf, fun p hp => ?_, h.live_produced, h.live_nodup, fun p hp => ?_, h.returned⟩
  · obtain ⟨hsz, sub, hloc, hslot, hfree⟩ := h.live p hp
    exact ⟨hsz, sub, hlocated _ _ hloc, hslot, hfree⟩
  · obtain ⟨sub, hloc, hslot⟩ := h.produced p hp
    exact ⟨sub, hlocated _ _ hloc, hslot⟩

end Extend

theorem Inv.produce (h : Inv P s) (sub : SubHeap) {a : Nat}
    (hloc : Located s ⟨t, ndx, sub.rawData⟩ sub) (hslot : IsSlot (heapSize ndx) sub a)
    (hfree : a ∉ sub.freeList) (hlive : a ∉ s.live.map Patch.addr)
    (hsz : heapSizeNdx sz = some ndx) : Inv P (s.produce sz t ndx (a, sub.rawData)) := by
  refine ⟨{ h.toWf with }, ?_, ?_, nodup_cons.mpr ⟨hlive, h.live_nodup⟩, ?_, fun r hr => ?_⟩
  · exact forall_mem_cons.mpr ⟨⟨hsz, sub, hloc, hslot, hfree⟩, h.live⟩
  · exact forall_mem_cons.mpr
      ⟨mem_cons_self .., fun p hp => mem_cons_of_mem _ (h.live_produced p hp)⟩
  · exact forall_mem_cons.mpr ⟨⟨sub, hloc, hslot⟩, h.produced⟩
  · obtain ⟨p, hp, hpr⟩ := h.returned r hr
    exact ⟨p, mem_cons_of_mem _ hp, hpr⟩

section Replace

variable {pre post : List SubHeap} {sub : SubHeap} {freeList : List Nat}

/-- The state with a free list changed. -/
abbrev withFreeList (s : PatchHeap) (t : AllocType) (ndx : Nat) (H : PatchHeap1Size)
    (pre : List SubHeap) (sub : SubHeap) (freeList : List Nat) (post : List SubHeap) : PatchHeap :=
  s.withHeap t ndx { H with heaps := pre ++ { sub with freeList := freeList } :: post }
    s.allocatedKernelMemBlocks

variable (hH : s.patchHeaps t ndx = some H) (hheaps : H.heaps = pre ++ sub :: post)
include hH hheaps

/-- Sub-heaps stay, or are the one that is changed. -/
theorem Located.withFreeList (freeList : List Nat) {sub' : SubHeap} (hloc : Located s o sub') :
    ∃ sub'', Located (s.withFreeList t ndx H pre sub freeList post) o sub'' ∧
      (sub'' = sub' ∨ (sub' = sub ∧ sub'' = { sub with freeList := freeList })) := by
  by_cases ho : o.allocType = t ∧ o.heapSizeNdx = ndx
  · obtain ⟨rfl, rfl⟩ := ho
    obtain ⟨H', hH', hmem, hraw⟩ := hloc
    obtain rfl := mem_unique hH hH'
    simp only [hheaps, mem_append, mem_cons] at hmem
    by_cases hsub : sub' = sub
    · subst hsub
      exact ⟨{ sub' with freeList := freeList },
        located_withHeap.mpr (.inl ⟨rfl, rfl, by simp, hraw⟩), .inr ⟨rfl, rfl⟩⟩
    · refine ⟨sub', located_withHeap.mpr (.inl ⟨rfl, rfl, ?_, hraw⟩), .inl rfl⟩
      simp only [mem_append, mem_cons]
      tauto
  · exact ⟨sub', located_withHeap.mpr (.inr ⟨ho, hloc⟩), .inl rfl⟩

/-- **A free list is changed.** -/
theorem Wf.withFreeList (h : Wf P s) (hnodup : freeList.Nodup)
    (hslots : ∀ a ∈ freeList, IsSlot (heapSize ndx) sub a) :
    Wf P (s.withFreeList t ndx H pre sub freeList post) := by
  obtain ⟨hsize, htype⟩ := h.size _ _ _ hH
  refine h.withHeap (h.ndx_lt _ _ _ hH) hsize htype
    ((h.heaps _ _ _ hH).replace hheaps hnodup (hsize ▸ hslots)) (fun _ => id) h.apart ?_
  intro sub₁ hsub₁ o sub' hloc' hraw
  obtain ⟨sub₂, hsub₂, hraw₂⟩ : ∃ sub₂ ∈ H.heaps, sub₂.rawData = sub₁.rawData := by
    simp only [mem_append, mem_cons] at hsub₁
    rw [hheaps]
    rcases hsub₁ with hsub₁ | rfl | hsub₁
    · exact ⟨sub₁, by simp [hsub₁], rfl⟩
    · exact ⟨sub, by simp, rfl⟩
    · exact ⟨sub₁, by simp [hsub₁], rfl⟩
  exact h.owner ⟨t, ndx, _⟩ o _ _ ⟨H, hH, hsub₂, rfl⟩ hloc' (hraw₂.trans hraw)

/-- A free list is changed, and some patches are no longer in use. -/
theorem Inv.replace (h : Inv P s) (hnodup : freeList.Nodup)
    (hslots : ∀ a ∈ freeList, IsSlot (heapSize ndx) sub a)
    {live : List Patch} (hlive : live.Sublist s.live)
    (hfree : ∀ p ∈ live, p.addr ∉ sub.freeList → p.addr ∉ freeList) :
    Inv P { s.withFreeList t ndx H pre sub freeList post with live := live } := by
  have hwf := h.toWf.withFreeList hH hheaps hnodup hslots
  refine ⟨{ hwf with }, fun p hp => ?_, fun p hp => ?_, h.live_nodup.sublist (hlive.map _),
    fun p hp => ?_, h.returned⟩
  · obtain ⟨hsz, sub', hloc', hslot', hfree'⟩ := h.live p (hlive.subset hp)
    obtain ⟨sub'', hloc'', rfl | ⟨rfl, rfl⟩⟩ := hloc'.withFreeList hH hheaps freeList
    · exact ⟨hsz, sub'', hloc'', hslot', hfree'⟩
    · exact ⟨hsz, _, hloc'', hslot', hfree p hp hfree'⟩
  · exact h.live_produced p (hlive.subset hp)
  · obtain ⟨sub', hloc', hslot'⟩ := h.produced p hp
    obtain ⟨sub'', hloc'', rfl | ⟨rfl, rfl⟩⟩ := hloc'.withFreeList hH hheaps freeList
    · exact ⟨sub'', hloc'', hslot'⟩
    · exact ⟨_, hloc'', hslot'⟩

/-- **A patch is taken** from a free list. -/
theorem Inv.pop (h : Inv P s) {a : Nat} (hfree : sub.freeList = a :: freeList)
    (hsz : heapSizeNdx sz = some ndx) :
    Inv P ((s.withFreeList t ndx H pre sub freeList post).produce sz t ndx (a, sub.rawData)) := by
  have hloc : Located s ⟨t, ndx, sub.rawData⟩ sub :=
    ⟨H, hH, hheaps ▸ mem_append_right _ (mem_cons_self ..), rfl⟩
  obtain ⟨-, hok, -⟩ := h.subOk hloc
  have hnodup := hok.free_nodup
  rw [hfree, nodup_cons] at hnodup
  have hslot : IsSlot (heapSize ndx) sub a := hok.free_slots a (hfree ▸ mem_cons_self ..)
  have hslots : ∀ b ∈ freeList, IsSlot (heapSize ndx) sub b := fun b hb =>
    hok.free_slots b (hfree ▸ mem_cons_of_mem _ hb)
  have hrest := h.replace hH hheaps hnodup.2 hslots (Sublist.refl _) fun p _ hp hp' =>
    hp (hfree ▸ mem_cons_of_mem _ hp')
  have hnew : Located (s.withFreeList t ndx H pre sub freeList post) ⟨t, ndx, sub.rawData⟩
      { sub with freeList := freeList } :=
    located_withHeap.mpr (.inl ⟨rfl, rfl, by simp, rfl⟩)
  refine hrest.produce { sub with freeList := freeList } hnew hslot hnodup.1 (fun hmem => ?_) hsz
  -- a patch in use is not free
  obtain ⟨p, hp, rfl⟩ := mem_map.mp hmem
  obtain ⟨-, sub', hloc', hslot', hfree'⟩ := h.live p hp
  obtain ⟨-, rfl⟩ := h.home_unique hloc hloc' hslot hslot'
  exact hfree' (hfree ▸ mem_cons_self ..)

end Replace

end

/-! ## Allocating -/

/-- The invariant holds after an operation, unless the kernel has broken its promise, and so does
what the operation is for. -/
def Keeps (P : HeapPlatform) (r : Except Stop PatchHeap) (post : PatchHeap → Prop) : Prop :=
  r = .error .kernel ∨ ∃ s', r = .ok s' ∧ Inv P s' ∧ post s'

/-- **A patch is taken** from the free ones of its size and place. If none of them was free, there
is a region that the kernel has just returned. -/
structure Took (s s' : PatchHeap) (p : Patch) : Prop where
  live : s'.live = p :: s.live
  produced : s'.produced = p :: s.produced
  returned : s'.returned = s.returned
  free : ∃ fresh, (freeOf (s.subHeaps p.home.allocType p.home.heapSizeNdx) ++ fresh).Perm
      ((p.home.region, p.addr) :: freeOf (s'.subHeaps p.home.allocType p.home.heapSizeNdx)) ∧
    ∀ q ∈ fresh, ∃ len, (q.1, len) ∈ s'.allocatedKernelMemBlocks ∧
      ∀ block ∈ s.allocatedKernelMemBlocks, BlocksApart block (q.1, len)
  others : ∀ t ndx, ¬ (t = p.home.allocType ∧ ndx = p.home.heapSizeNdx) →
    s'.subHeaps t ndx = s.subHeaps t ndx

/-- **A patch is returned** to the free ones of the region that it is from. -/
structure GaveBack (s s' : PatchHeap) (p : Patch) : Prop where
  live : s'.live = s.live.filter (·.addr ≠ p.addr)
  produced : s'.produced = s.produced
  returned : s'.returned = (p.addr, p.home) :: s.returned
  free : (freeOf (s'.subHeaps p.home.allocType p.home.heapSizeNdx)).Perm
    ((p.home.region, p.addr) :: freeOf (s.subHeaps p.home.allocType p.home.heapSizeNdx))
  others : ∀ t ndx, ¬ (t = p.home.allocType ∧ ndx = p.home.heapSizeNdx) →
    s'.subHeaps t ndx = s.subHeaps t ndx

/-- What an operation does. Only a request for the nucleus may be served from there, or from
below it. -/
def Does (s s' : PatchHeap) : Op → Prop
  | .alloc sz tryForNucleus _ => ∃ p, p.sz = sz ∧
      (tryForNucleus = false → p.home.allocType = .kmem32) ∧ Took s s' p
  | .free kernelAddr sz => ∃ p ∈ s.live, p.addr = kernelAddr ∧ p.sz = sz ∧ GaveBack s s' p

/-- The free list is of a sub-heap that was there, or of a new one. -/
theorem took_withHeap {t : AllocType} {ndx sz a : Nat} (H : PatchHeap1Size)
    {taken : List (Nat × Nat)} (pre : List SubHeap) {post : List SubHeap} {sub : SubHeap}
    {freeList : List Nat}
    (hadded : Added s.allocatedKernelMemBlocks (s.subHeaps t ndx) taken H.heaps)
    (hheaps : H.heaps = pre ++ sub :: post) (hfree : sub.freeList = a :: freeList) :
    Took s ((s.withHeap t ndx { H with heaps := pre ++ { sub with freeList := freeList } :: post }
      taken).produce sz t ndx (a, sub.rawData)) ⟨a, sz, t, ndx, sub.rawData⟩ := by
  have hsubs := @subHeaps_withHeap s t ndx
    { H with heaps := pre ++ { sub with freeList := freeList } :: post } taken
  refine ⟨rfl, rfl, rfl, ?_, fun t' ndx' hne => (hsubs t' ndx').trans (if_neg hne)⟩
  have hperm := (perm_freeOf hfree).trans (.of_eq (congrArg (fun heaps =>
    (sub.rawData, a) :: freeOf heaps) ((hsubs t ndx).trans (if_pos ⟨rfl, rfl⟩)).symm))
  rw [← hheaps] at hperm
  obtain ⟨-, heq⟩ | ⟨new, rfl, heq, hapart⟩ := hadded
  · refine ⟨[], ?_, nofun⟩
    rw [append_nil, ← heq]
    exact hperm
  · refine ⟨freeOf [new], perm_append_comm.trans ?_, fun q hq => ?_⟩
    · rw [heq] at hperm
      simp only [freeOf, flatMap_cons, flatMap_nil, append_nil] at hperm ⊢
      exact hperm
    · obtain ⟨b, -, rfl⟩ := mem_map.mp (by simpa only [freeOf, flatMap_singleton] using hq)
      exact ⟨new.actualHeapSize, mem_cons_self .., hapart⟩

section Alloc

variable {t : AllocType} {ndx sz : Nat} (h : Inv P s) (hsz : heapSizeNdx sz = some ndx)
include h hsz

/-- **An allocation in some place**: the kernel breaks its promise, or there is no memory, or a
patch is produced. -/
theorem Inv.allocIn_spec (t : AllocType) (kernelAddrs : Nat × Nat) :
    (s.allocIn P t ndx kernelAddrs = .error .kernel ∧ ¬ NoMemory kernelAddrs) ∨
      (NoMemory kernelAddrs ∧ ¬ HasFree (s.subHeaps t ndx) ∧
        s.allocIn P t ndx kernelAddrs = .ok ((0, 0), s)) ∨
      ∃ r s', r.1 ≠ 0 ∧ s.allocIn P t ndx kernelAddrs = .ok (r, s') ∧
        Inv P (s'.produce sz t ndx r) ∧ (NoMemory kernelAddrs → HasFree (s.subHeaps t ndx)) ∧
        Took s (s'.produce sz t ndx r) ⟨r.1, sz, t, ndx, r.2⟩ := by
  have hndx := (heapSizeNdx_spec hsz).1
  obtain ⟨hsize, hsize', hfour⟩ := heapSize_pos ndx hndx
  have hpos : 0 < heapSize ndx := by omega
  -- a patch is taken from heaps that have been extended
  have htaken : ∀ (H : PatchHeap1Size) {taken' : List (Nat × Nat)} (pre : List SubHeap)
      {post : List SubHeap} {sub : SubHeap} {a : Nat} {freeList : List Nat},
      H.sizeOfT = heapSize ndx → H.allocType = t →
      HeapOk P taken' H → Added s.allocatedKernelMemBlocks (s.subHeaps t ndx) taken' H.heaps →
      H.heaps = pre ++ sub :: post → sub.freeList = a :: freeList → a ≠ 0 ∧ Inv P ((s.withHeap t ndx
          { H with heaps := pre ++ { sub with freeList := freeList } :: post }
          taken').produce sz t ndx (a, sub.rawData)) := by
    intro H taken' pre post sub a freeList hHsize hHtype hok hadded hheaps hfree
    have hinv := h.extend hndx hHsize hHtype hok hadded
    have hH : (s.withHeap t ndx H taken').patchHeaps t ndx = some H := by
      rw [patchHeaps_withHeap, if_pos ⟨rfl, rfl⟩]
    have hpop := hinv.pop hH hheaps hfree hsz
    have hsub := hok.subs sub (hheaps ▸ mem_append_right _ (mem_cons_self ..))
    rw [withFreeList, withHeap_withHeap] at hpop
    exact ⟨hsub.ne_zero_of_free hfree, hpop⟩
  cases hH : s.patchHeaps t ndx with
  | none =>
    obtain ⟨hfirst, hfirst'⟩ := P.firstNumElems_spec hndx
    rw [allocIn, hH]
    rw [assertTrue_pos hfour, assertTrue_pos hfirst]
    dsimp only [bind, Except.bind]
    have hnone : s.subHeaps t ndx = [] := by rw [subHeaps, hH]
    have hfree : ¬ HasFree (s.subHeaps t ndx) := fun ⟨_, hmem, _⟩ => not_mem_nil (hnone ▸ hmem)
    obtain ⟨hcreate, hnonzero⟩ | ⟨hcreate, hzero⟩ | ⟨sub, hcreate, hnew, hnonzero⟩ :=
      createSubheap_spec P s.allocatedKernelMemBlocks kernelAddrs t hpos hfirst P.pageNumBytes_dvd
        (by decide) (hfirst'.trans (by decide))
    · rw [hcreate]
      exact .inl ⟨rfl, hnonzero⟩
    · rw [hcreate]
      exact .inr (.inl ⟨hzero, hfree, rfl⟩)
    · rw [hcreate]
      dsimp only
      have hok := HeapOk.first ⟨hsize, hsize'⟩ hnew hfirst'
      obtain ⟨a, freeList, hfree⟩ := hnew.exists_free hfirst
      have hadded : Added s.allocatedKernelMemBlocks (s.subHeaps t ndx)
          ((sub.rawData, sub.actualHeapSize) :: s.allocatedKernelMemBlocks) [sub] :=
        .inr ⟨sub, rfl, by rw [hnone], hnew.apart⟩
      obtain ⟨hne, hinv⟩ := htaken ⟨heapSize ndx, t, [sub]⟩ [] rfl rfl hok hadded rfl hfree
      rw [PatchHeap1Size.alloc]
      dsimp only [bind, Except.bind]
      rw [allocate_of_free hpos hnew.ok hfree]
      dsimp only
      rw [if_neg hne]
      exact .inr (.inr ⟨(a, sub.rawData), _, hne, rfl, hinv, fun h0 => (hnonzero h0).elim,
        took_withHeap ⟨heapSize ndx, t, [sub]⟩ [] hadded rfl hfree⟩)
  | some H =>
    obtain ⟨hHsize, hHtype⟩ := h.size _ _ _ hH
    have hok := h.heaps _ _ _ hH
    have hheaps : s.subHeaps t ndx = H.heaps := by rw [subHeaps, hH]
    rw [allocIn, hH]
    dsimp only
    rw [assertTrue_pos hHsize]
    rw [hheaps]
    obtain ⟨hrun, hnonzero⟩ | ⟨hzero, hfree, hrun⟩ | ⟨taken', heaps, pre, sub, post, a, freeList,
      hadded, hok', heq, hfree, hzero, hrun⟩ := hok.alloc_spec kernelAddrs h.apart
    · rw [hrun]
      exact .inl ⟨rfl, hnonzero⟩
    · rw [hrun]
      refine .inr (.inl ⟨hzero, hfree, ?_⟩)
      have hself : s.withHeap t ndx H s.allocatedKernelMemBlocks = s := by
        rw [withHeap, ← hH, update_eq_self, update_eq_self]
      exact congrArg (fun s' => Except.ok ((0, 0), s')) hself
    · rw [hrun]
      obtain ⟨hne, hinv⟩ := htaken { H with heaps := heaps } pre hHsize hHtype hok'
        (hheaps.symm ▸ hadded) heq hfree
      exact .inr (.inr ⟨(a, sub.rawData), _, hne, rfl, hinv, hzero,
        took_withHeap { H with heaps := heaps } pre (hheaps.symm ▸ hadded) heq hfree⟩)

/-- The last place is asserted to have memory. -/
theorem Inv.allocNonNucleus_keeps {kernelAddrs : Nat × Nat} (hmemory : ¬ NoMemory kernelAddrs) :
    Keeps P (s.allocNonNucleus P sz ndx kernelAddrs) fun s' => ∃ p, p.sz = sz ∧
      p.home.allocType = .kmem32 ∧ Took s s' p := by
  unfold allocNonNucleus
  obtain ⟨hrun, -⟩ | ⟨hzero, -⟩ | ⟨r, s', hne, hrun, hinv, -, htook⟩ :=
    h.allocIn_spec hsz .kmem32 kernelAddrs
  · rw [hrun]
    exact .inl rfl
  · exact (hmemory hzero).elim
  · rw [hrun]
    dsimp only [bind, Except.bind]
    rw [assertTrue_pos hne]
    exact .inr ⟨_, rfl, hinv, _, rfl, rfl, htook⟩

/-- Only the flag of the place changes before the next place is tried. -/
theorem Inv.allocOrElse_keeps (kernelAddrs : Nat × Nat)
    {otherwise : PatchHeap → Except Stop PatchHeap} {post : PatchHeap → Prop}
    (hpost : ∀ s' p, p.sz = sz → Took s s' p → post s')
    (hotherwise : ∀ failed, Keeps P (otherwise { s with allocationHasFailed := failed }) post) :
    Keeps P (s.allocOrElse P t sz ndx kernelAddrs otherwise) post := by
  unfold allocOrElse
  split
  · exact hotherwise s.allocationHasFailed
  · obtain ⟨hrun, -⟩ | ⟨-, -, hrun⟩ | ⟨r, s', hne, hrun, hinv, -, htook⟩ :=
      h.allocIn_spec hsz t kernelAddrs
    · rw [hrun]
      exact .inl rfl
    · rw [hrun]
      exact hotherwise _
    · rw [hrun]
      dsimp only [bind, Except.bind]
      rw [if_neg hne]
      exact .inr ⟨_, rfl, hinv, hpost _ _ rfl htook⟩

theorem Inv.alloc_keeps (tryForNucleus : Bool) {kernelAddrs : AllocType → Nat × Nat}
    (hmemory : ¬ NoMemory (kernelAddrs .kmem32)) :
    Keeps P (s.alloc P sz tryForNucleus kernelAddrs) fun s' =>
      Does s s' (.alloc sz tryForNucleus kernelAddrs) := by
  rw [alloc, hsz]
  dsimp only
  split
  case isTrue htry =>
    have hpost : ∀ s' p, p.sz = sz → Took s s' p →
      Does s s' (.alloc sz tryForNucleus kernelAddrs) :=
      fun s' p hp htook => ⟨p, hp, fun hfalse => absurd (htry.symm.trans hfalse) nofun, htook⟩
    refine h.allocOrElse_keeps hsz _ hpost fun failed => ?_
    have h₁ : Inv P { s with allocationHasFailed := failed } := { h with }
    refine h₁.allocOrElse_keeps hsz _ (fun s' p hp htook => hpost s' p hp { htook with })
      fun failed' => ?_
    have h₂ : Inv P { s with allocationHasFailed := failed' } := { h with }
    exact (h₂.allocNonNucleus_keeps hsz hmemory).imp_right
      fun ⟨s', hrun, hinv, p, hp, _, htook⟩ => ⟨s', hrun, hinv, hpost s' p hp { htook with }⟩
  case isFalse =>
    exact (h.allocNonNucleus_keeps hsz hmemory).imp_right
      fun ⟨s', hrun, hinv, p, hp, hkmem, htook⟩ => ⟨s', hrun, hinv, p, hp, fun _ => hkmem, htook⟩

end Alloc

/-! ## Freeing -/

/-- The place is found from the address. -/
theorem placeOf_of_slot {sub : SubHeap} {a : Nat} (h : Wf P s) (hloc : Located s o sub)
    (hslot : IsSlot (heapSize o.heapSizeNdx) sub a) : placeOf P a = o.allocType := by
  obtain ⟨hndx, hok, -⟩ := h.subOk hloc
  obtain ⟨hle, hle'⟩ := hok.slot_within hslot
  have hsize := (heapSize_pos _ hndx).1
  have hplace := hok.place (a - sub.rawData) (by omega)
  rw [Nat.add_sub_cancel' hle] at hplace
  rw [placeOf, hplace.1, hplace.2]
  cases o.allocType <;> rfl

/-- The sub-heap that a patch is from is found again. -/
theorem Inv.free_keeps (h : Inv P s) {p : Patch} (hp : p ∈ s.live) :
    Keeps P (s.free P p.addr p.sz) fun s' => GaveBack s s' p := by
  obtain ⟨hsz, sub, hloc, hslot, hfree⟩ := h.live p hp
  obtain ⟨hndx, hok, -⟩ := h.subOk hloc
  obtain ⟨hle, hle'⟩ := hok.slot_within hslot
  have hsize := (heapSize_pos _ hndx).1
  have hraw := hok.raw_pos
  have hbelow := hok.below
  have hplace := placeOf_of_slot h.toWf hloc hslot
  obtain ⟨H, hH, hmem, hregion⟩ := id hloc
  have hHsize := (h.size _ _ _ hH).1
  obtain ⟨pre, post, hheaps⟩ := append_of_mem hmem
  -- the sub-heaps before it are of other regions
  have hpre : ∀ sub' ∈ pre, SubOk P (heapSize p.home.heapSizeNdx) p.home.allocType sub' ∧
      (p.addr < sub'.rawData ∨ sub'.rawData + sub'.actualHeapSize ≤ p.addr) := by
    intro sub' hsub'
    have hloc' : Located s { p.home with region := sub'.rawData } sub' :=
      ⟨H, hH, hheaps ▸ mem_append_left _ hsub', rfl⟩
    have hregions := (h.heaps _ _ _ hH).regions
    rw [hheaps, map_append, nodup_append] at hregions
    have hapart := h.regions_apart hloc' hloc
      (hregions.2.2 _ (mem_map_of_mem hsub') _ (mem_cons_self ..))
    exact ⟨(h.subOk hloc').2.1, by omega⟩
  have hrun : H.free p.addr =
      .ok (pre ++ { sub with freeList := p.addr :: sub.freeList } :: post, sub.rawData) := by
    rw [PatchHeap1Size.free, if_neg (by omega), hHsize, hheaps]
    exact deallocate_eq (by omega) (by omega) hpre hok hslot hfree
  have hinv := h.replace hH hheaps (nodup_cons.mpr ⟨hfree, hok.free_nodup⟩)
    (forall_mem_cons.mpr ⟨hslot, hok.free_slots⟩)
    (filter_sublist (p := fun q => decide (q.addr ≠ p.addr))) fun q hq hq' => by
      obtain ⟨-, hne⟩ := mem_filter.mp hq
      exact not_mem_cons_of_ne_of_not_mem (of_decide_eq_true hne) hq'
  rw [free, hsz]
  dsimp only
  rw [hplace, freeIn, hH]
  dsimp only
  rw [assertTrue_pos hHsize]
  rw [hrun]
  have hhome : (⟨p.home.allocType, p.home.heapSizeNdx, sub.rawData⟩ : Home) = p.home := by
    rw [hregion]
  have hsubs := @subHeaps_withHeap s p.home.allocType p.home.heapSizeNdx { H with heaps :=
    pre ++ { sub with freeList := p.addr :: sub.freeList } :: post } s.allocatedKernelMemBlocks
  refine .inr ⟨_, rfl, { hinv with returned := ?_ }, rfl, rfl, ?_, ?_, fun t ndx hne => ?_⟩
  · exact forall_mem_cons.mpr ⟨⟨p, h.live_produced p hp, rfl, hhome.symm⟩, hinv.returned⟩
  · exact congrArg (fun home => (p.addr, home) :: s.returned) hhome
  · have hold : s.subHeaps p.home.allocType p.home.heapSizeNdx = pre ++ sub :: post := by
      rw [subHeaps, hH]
      exact hheaps
    rw [hold, ← hregion]
    exact (Perm.of_eq (congrArg freeOf ((hsubs _ _).trans (if_pos ⟨rfl, rfl⟩)))).trans
      (perm_freeOf rfl)
  · exact (hsubs t ndx).trans (if_neg hne)

/-! ## Runs -/

/-- A size that is supported, with memory outside the nucleus; or a patch in use and the size that
it was requested with. -/
def Op.Allowed (s : PatchHeap) : Op → Prop
  | .alloc sz _ kernelAddrs => (heapSizeNdx sz).isSome ∧ ¬ NoMemory (kernelAddrs .kmem32)
  | .free kernelAddr sz => ∃ p ∈ s.live, p.addr = kernelAddr ∧ p.sz = sz

theorem Inv.step_keeps (h : Inv P s) {op : Op} (hop : op.Allowed s) :
    Keeps P (s.step P op) fun s' => Does s s' op := by
  cases op with
  | alloc sz tryForNucleus kernelAddrs =>
    obtain ⟨ndx, hsz⟩ := isSome_iff_exists.mp hop.1
    exact h.alloc_keeps hsz tryForNucleus hop.2
  | free kernelAddr sz =>
    obtain ⟨p, hp, rfl, rfl⟩ := hop
    exact (h.free_keeps hp).imp_right fun ⟨s', hrun, hinv, hback⟩ =>
      ⟨s', hrun, hinv, p, hp, rfl, rfl, hback⟩

/-- Every operation of the run is allowed when it is made. -/
abbrev AllAllowed (P : HeapPlatform) : PatchHeap → List Op → Prop :=
  AllSteps (fun s op => (s.step P op).toOption) fun s op => op.Allowed s

/-- What comes after a part of a run is allowed too. -/
theorem Inv.run_keeps {ops rest : List Op} : ∀ {s : PatchHeap}, Inv P s →
    AllAllowed P s (ops ++ rest) → ops.foldlM (step P) s = .error .kernel ∨
      ∃ s', ops.foldlM (step P) s = .ok s' ∧ Inv P s' ∧ AllAllowed P s' rest := by
  induction ops with
  | nil => exact fun h hall => .inr ⟨_, rfl, h, hall⟩
  | cons op ops ih =>
    intro s h hall
    rw [foldlM_cons]
    obtain hrun | ⟨s', hrun, h', -⟩ := h.step_keeps hall.1
    · rw [hrun]
      exact .inl rfl
    · rw [hrun]
      exact ih h' (hall.2 s' (congrArg Except.toOption hrun))

theorem inv_create : Inv P create := by
  refine ⟨⟨nofun, nofun, nofun, .nil, ?_⟩, nofun, nofun, .nil, nofun, nofun⟩
  rintro o o' h h' ⟨H, hH, -⟩
  cases hH

/-- Patches in use do not overlap and are long enough. Whatever was produced at the same bytes is
the same patch of the same sub-heap. What is freed goes back to the sub-heap that produced it. -/
structure Safe (s : PatchHeap) : Prop where
  apart : s.live.Pairwise Patch.Apart
  long : ∀ p ∈ s.live, p.sz ≤ p.length
  reused : ∀ p ∈ s.produced, ∀ q ∈ s.produced,
    (p.addr = q.addr ∧ p.home = q.home) ∨ p.Apart q
  returned : ∀ r ∈ s.returned, ∃ p ∈ s.produced, p.addr = r.1 ∧ p.home = r.2

theorem Inv.safe (h : Inv P s) : Safe s := by
  have hreused : ∀ p ∈ s.produced, ∀ q ∈ s.produced,
      (p.addr = q.addr ∧ p.home = q.home) ∨ p.Apart q := by
    intro p hp q hq
    obtain ⟨sub, hloc, hslot⟩ := h.produced p hp
    obtain ⟨sub', hloc', hslot'⟩ := h.produced q hq
    obtain ⟨ho, -, ha⟩ | hapart := h.slots_apart hloc hloc' hslot hslot'
    · exact .inl ⟨ha, ho⟩
    · exact .inr hapart
  refine ⟨?_, fun p hp => (heapSizeNdx_spec (h.live p hp).1).2, hreused, h.returned⟩
  have hne := pairwise_map.mp h.live_nodup
  refine hne.imp_of_mem fun {p q} hp hq hpq => ?_
  obtain ⟨ha, -⟩ | hapart := hreused p (h.live_produced p hp) q (h.live_produced q hq)
  · exact (hpq ha).elim
  · exact hapart

section Witness

/-- A machine without a nucleus, with pages of 4096 bytes. -/
def flat : HeapPlatform := ⟨false, 12, by decide, fun _ => false, fun _ => false⟩

/-- The kernel returns a region for four patches of 8192 bytes. -/
theorem createSubheap_flat : createSubheap flat [] (65536, 65536) 8192 .kmem32 4 =
    .ok (some ⟨4, 65536, [90112, 81920, 73728, 65536], 32768⟩) := by
  have hpromised : flat.Promised [] .kmem32 65536 32768 :=
    ⟨by decide, nofun, fun _ _ => ⟨rfl, rfl⟩⟩
  have hround : flat.roundUpToMultipleOfPageSize (4 * 8192 % 2 ^ 32) = 32768 := by decide
  rw [createSubheap, hround]
  rw [if_neg (by decide), if_pos hpromised]
  rfl

/-- A request that the kernel has memory for. -/
abbrev request (sz : Nat) : Op := .alloc sz false fun _ => (65536, 65536)

/-- The first of the patches, which is the last of the region, is in use. -/
def firstInUse : PatchHeap :=
  (create.withHeap .kmem32 14 ⟨8192, .kmem32, [⟨4, 65536, [81920, 73728, 65536], 32768⟩]⟩
    [(65536, 32768)]).produce 8000 .kmem32 14 (90112, 65536)

theorem step_first : create.step flat (request 8000) = .ok firstInUse := by
  have hndx : heapSizeNdx 8000 = some 14 := by decide
  have hfirst : flat.firstNumElems 8192 = 4 := by decide
  have hsize : heapSize 14 = 8192 := by decide
  rw [step, alloc, hndx]
  dsimp only
  rw [if_neg (by decide), allocNonNucleus, allocIn]
  dsimp only [create]
  rw [hsize, hfirst, createSubheap_flat]
  rfl

/-- Two patches are allocated, and the first one is freed. -/
def sampleOps : List Op := [request 8000, request 6000, .free 90112 8000]

theorem allAllowed_sampleOps : AllAllowed flat create (sampleOps ++ [request 7000]) := by
  refine ⟨⟨by decide, by decide⟩, fun s₁ hs₁ => ⟨⟨by decide, by decide⟩, fun s₂ hs₂ => ?_⟩⟩
  dsimp only at hs₁
  rw [step_first] at hs₁
  obtain rfl := some.inj hs₁
  obtain rfl := some.inj hs₂
  exact ⟨⟨_, .tail _ (.head _), rfl, rfl⟩, fun s₃ _ =>
    ⟨⟨by decide, by decide⟩, fun _ _ => trivial⟩⟩

end Witness

end PatchHeap

end Kerninst
