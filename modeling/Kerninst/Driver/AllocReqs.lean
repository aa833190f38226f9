import Kerninst.Lib.SwapRemove
import Mathlib.Algebra.Order.Group.Multiset

/-!
# Kernel memory that is allocated for kerninstd

Modelled from `kerninstdriver-linux/src/loggedAllocRequests.c`. The driver logs what it allocates,
so that it can free all of it in the end. The kernel keeps the regions that were obtained from it
and not freed; to free another one is an error.

* A region that is not aligned as required is neither logged nor freed.
* A region for the nucleus is read from before it is known that there is one.
* `LAR_free` of an address that is not logged reports an error only if nothing is logged.

What is lost in this way never comes back (`Inv.step`), so a run is right exactly if it never
happens.
-/

namespace Kerninst.AllocReqs

open List

/-- `kptr_t` -/
abbrev Kptr := BitVec 64

/-! ## The source -/

/-- `ALLOC_TYPE_DATA` -/
def allocTypeData : Nat := 0

/-- `ALLOC_TYPE_NUCLEUS` -/
def allocTypeNucleus : Nat := 3

/-- `ALLOC_TYPE_KMEM32` -/
def allocTypeKmem32 : Nat := 4

/-- `MAX_ALLOC_REQS` -/
def maxAllocReqs : Nat := 100

/-- `kmalloc`, `vmalloc` and `kerninst_malloc_ptr`, with what frees their regions. -/
inductive Heap
  | kmalloc
  | vmalloc
  | nucleus
deriving DecidableEq, Repr

/-- `oneAllocReq` -/
structure OneAllocReq where
  prettyAddr : Kptr
  prettyMappedAddr : Kptr
  prettyNumBytes : Nat
  allocType : Nat
  actuallyAllocatedAt : Kptr
  actuallyMappedAt : Kptr
  actualNumBytesAllocated : Nat
deriving DecidableEq, Repr

/-- The log, and the regions that the kernel has handed out. -/
structure State where
  reqs : List OneAllocReq
  regions : Multiset (Heap × Kptr)

/-- What is called. An allocation comes with the answer of the kernel, null if it fails. -/
inductive Call
  | alloc (nbytes requiredAlignment allocType : Nat) (region : Kptr)
  | free (kernelAddr mappedKernelAddr : Kptr) (nbytes : Nat)

/-- The value that is returned, and what is stored through `result` and `result_mappable`. -/
structure Answer where
  code : Nat
  result : Option (Kptr × Kptr)

section Source

variable (ppc64 : Bool)

/-- The heap for a type, unless it is invalid. -/
def allocHeap (allocType : Nat) : Option Heap :=
  if allocType = allocTypeData ∨ allocType = allocTypeKmem32 then
    some (if ppc64 then .vmalloc else .kmalloc)
  else if ppc64 ∧ allocType = allocTypeNucleus then some .nucleus
  else none

/-- The heap that `LAR_free` gives a region back to. -/
def freeHeap (allocType : Nat) : Heap :=
  if ppc64 then if allocType = allocTypeNucleus then .nucleus else .vmalloc else .kmalloc

/-- `kfree`, `vfree` or `kerninst_free_ptr` -/
def release (regions : Multiset (Heap × Kptr)) (region : Heap × Kptr) :
    Option (Multiset (Heap × Kptr)) :=
  if region ∈ regions then some (regions.erase region) else none

/-- `OAR_allocate`. There is no request if it returns 1. -/
def oarAllocate (nbytes reqdAlign allocType : Nat) (region : Kptr)
    (regions : Multiset (Heap × Kptr)) : Option (Option OneAllocReq × Multiset (Heap × Kptr)) :=
  match allocHeap ppc64 allocType with
  | none => some (none, regions)
  | some heap =>
    if nbytes > 131000 then some (none, regions)
    else do
      -- `kerninst_touch_bolted` reads from the region, which may be null
      check (heap = .nucleus → region ≠ 0)
      if region = 0 then pure (none, regions)
      else do
        -- `%` traps
        check (reqdAlign ≠ 0)
        if region.toNat % reqdAlign ≠ 0 then pure (none, (heap, region) ::ₘ regions)
        else pure (some ⟨region, region, nbytes, allocType, region, region, nbytes⟩,
          (heap, region) ::ₘ regions)

/-- `LAR_alloc` -/
def larAlloc (s : State) (nbytes requiredAlignment allocType : Nat) (region : Kptr) :
    Option (State × Answer) :=
  if s.reqs.length = maxAllocReqs then some (s, ⟨1, none⟩)
  else (oarAllocate ppc64 nbytes requiredAlignment allocType region s.regions).map fun
    | (some req, regions) =>
      (⟨s.reqs ++ [req], regions⟩, ⟨0, some (req.prettyAddr, req.prettyMappedAddr)⟩)
    | (none, regions) => ({ s with regions }, ⟨0, some (0, 0)⟩)

/-- `LAR_free`, which is given the number of bytes and does not look at it. -/
def larFree (s : State) (kernelAddr mappedKernelAddr : Kptr) : Option (State × Answer) :=
  if s.reqs = [] then some (s, ⟨1, none⟩)
  else
    let i := s.reqs.findIdx (·.prettyAddr = kernelAddr)
    match s.reqs[i]? with
    | none => some (s, ⟨0, none⟩)
    | some req =>
      if req.prettyMappedAddr ≠ mappedKernelAddr then some (s, ⟨1, none⟩)
      else (release s.regions (freeHeap ppc64 req.allocType, req.actuallyAllocatedAt)).map
        fun regions => (⟨swapRemove s.reqs i, regions⟩, ⟨0, none⟩)

/-- The regions that are left after `LAR_undo`. -/
def larUndo (s : State) : Option (Multiset (Heap × Kptr)) :=
  s.reqs.foldlM (fun regions req => match allocHeap ppc64 req.allocType with
    | some heap => release regions (heap, req.actuallyAllocatedAt)
    | none => some regions) s.regions

/-- The state after a call, and its answer; nothing if there is a trap or a wrong free. -/
def call (s : State) : Call → Option (State × Answer)
  | .alloc nbytes requiredAlignment allocType region =>
    larAlloc ppc64 s nbytes requiredAlignment allocType region
  | .free kernelAddr mappedKernelAddr _ => larFree ppc64 s kernelAddr mappedKernelAddr

/-- The state after a call. -/
def step (s : State) (c : Call) : Option State := (call ppc64 s c).map Prod.fst

/-- Nothing is logged or allocated. -/
def State.init : State := ⟨[], 0⟩

/-- The address is in the log. -/
def State.Logged (s : State) (addr : Kptr) : Prop := ∃ req ∈ s.reqs, req.prettyAddr = addr

/-! ## The specification -/

/-- `LAR_free` of an address that is not logged reports an error and changes nothing. -/
def ReportsUnknown (s : State) (c : Call) : Prop :=
  ∀ addr mapped n, c = .free addr mapped n → ¬ s.Logged addr →
    ∃ answer, answer.code ≠ 0 ∧ call ppc64 s c = some (s, answer)

/-- Nothing is leaked or freed twice in the calls and a final `LAR_undo`. -/
structure Accounted (calls : List Call) : Prop where
  freed : ∃ s, calls.foldlM (step ppc64) .init = some s ∧ larUndo ppc64 s = some 0
  /-- What was reported stays allocated. -/
  stays : ∀ pre mid c s s₁ s₂ code addr mapped, pre ++ c :: mid <+: calls →
    pre.foldlM (step ppc64) .init = some s →
    call ppc64 s c = some (s₁, ⟨code, some (addr, mapped)⟩) → addr ≠ 0 →
    (∀ mapped' n, .free addr mapped' n ∉ mid) → mid.foldlM (step ppc64) s₁ = some s₂ →
    ∃ heap, (heap, addr) ∈ s₂.regions
  unknown : AllSteps (step ppc64) (ReportsUnknown ppc64) .init calls

/-- The kernel's answer is aligned as required if it is looked at, and is not null in the nucleus;
what is freed is logged, or nothing is. -/
def Ok (s : State) : Call → Prop
  | .alloc nbytes requiredAlignment allocType region =>
    s.reqs.length = maxAllocReqs ∨ allocHeap ppc64 allocType = none ∨ nbytes > 131000 ∨
      if region = 0 then allocHeap ppc64 allocType ≠ some .nucleus
      else requiredAlignment ≠ 0 ∧ region.toNat % requiredAlignment = 0
  | .free kernelAddr _ _ => s.reqs = [] ∨ s.Logged kernelAddr

end Source

/-! ## The log and the kernel -/

variable {ppc64 : Bool} {s s' : State} {c : Call} {lost : Multiset (Heap × Kptr)}

/-- The region of a request. -/
def OneAllocReq.region (ppc64 : Bool) (req : OneAllocReq) : Heap × Kptr :=
  (freeHeap ppc64 req.allocType, req.actuallyAllocatedAt)

/-- The regions of the kernel are those of the log, and the lost ones. -/
structure Inv (ppc64 : Bool) (lost : Multiset (Heap × Kptr)) (s : State) : Prop where
  regions : s.regions = lost + (s.reqs.map (·.region ppc64) : Multiset (Heap × Kptr))
  type : ∀ req ∈ s.reqs, allocHeap ppc64 req.allocType = some (freeHeap ppc64 req.allocType)
  addr : ∀ req ∈ s.reqs, req.actuallyAllocatedAt = req.prettyAddr

theorem freeHeap_of_allocHeap {allocType : Nat} {heap : Heap}
    (h : allocHeap ppc64 allocType = some heap) : freeHeap ppc64 allocType = heap := by
  simp only [allocHeap] at h
  split at h
  · rename_i htype
    obtain rfl := Option.some.inj h
    rcases htype with rfl | rfl <;> rfl
  · split at h
    · rename_i hnucleus
      obtain rfl := Option.some.inj h
      simp [freeHeap, hnucleus]
    · cases h

theorem release_cons (regions : Multiset (Heap × Kptr)) (region : Heap × Kptr) :
    release (region ::ₘ regions) region = some regions := by
  rw [release, if_pos (Multiset.mem_cons_self _ _), Multiset.erase_cons_head]

/-- What `LAR_undo` leaves is what was lost. -/
theorem larUndo_eq (h : Inv ppc64 lost s) : larUndo ppc64 s = some lost := by
  obtain ⟨reqs, regions⟩ := s
  obtain ⟨hregions, htype, -⟩ := h
  simp only [larUndo] at hregions htype ⊢
  induction reqs generalizing regions with
  | nil => simpa using hregions
  | cons req reqs ih =>
    obtain ⟨hreq, hrest⟩ := forall_mem_cons.mp htype
    have hcons : regions =
        req.region ppc64 ::ₘ (lost + (reqs.map (·.region ppc64) : Multiset (Heap × Kptr))) := by
      rw [hregions, map_cons, ← Multiset.cons_coe, Multiset.add_cons]
    rw [foldlM_cons, hcons]
    simp only [hreq]
    rw [OneAllocReq.region, release_cons]
    exact ih _ rfl hrest

/-! ## Calls -/

/-- What a call can do. -/
inductive Effect (ppc64 : Bool) (s : State) (c : Call) : Option (State × Answer) → Prop
  | same {answer : Answer} (hok : Ok ppc64 s c) (hnull : ∀ p, answer.result = some p → p.1 = 0) :
      Effect ppc64 s c (some (s, answer))
  | logged (req : OneAllocReq) (hok : Ok ppc64 s c)
      (htype : allocHeap ppc64 req.allocType = some (freeHeap ppc64 req.allocType))
      (haddr : req.actuallyAllocatedAt = req.prettyAddr) :
      Effect ppc64 s c (some (⟨s.reqs ++ [req], req.region ppc64 ::ₘ s.regions⟩,
        ⟨0, some (req.prettyAddr, req.prettyMappedAddr)⟩))
  | lost (region : Heap × Kptr) (hok : ¬ Ok ppc64 s c) :
      Effect ppc64 s c (some ({ s with regions := region ::ₘ s.regions }, ⟨0, some (0, 0)⟩))
  | trap (hok : ¬ Ok ppc64 s c) : Effect ppc64 s c none
  | unknown {addr mapped : Kptr} {n : Nat} (hc : c = .free addr mapped n) (hok : ¬ Ok ppc64 s c) :
      Effect ppc64 s c (some (s, ⟨0, none⟩))
  | freed (i : Nat) (req : OneAllocReq) (hreq : s.reqs[i]? = some req)
      (hc : ∃ mapped n, c = .free req.prettyAddr mapped n) :
      Effect ppc64 s c ((release s.regions (req.region ppc64)).map fun regions =>
        (⟨swapRemove s.reqs i, regions⟩, ⟨0, none⟩))

theorem larAlloc_effect (n align type : Nat) (region : Kptr) :
    Effect ppc64 s (.alloc n align type region) (larAlloc ppc64 s n align type region) := by
  by_cases hfull : s.reqs.length = maxAllocReqs
  · rw [larAlloc, if_pos hfull]
    exact .same (.inl hfull) (by simp)
  rw [larAlloc, if_neg hfull, oarAllocate]
  cases hheap : allocHeap ppc64 type with
  | none => exact .same (.inr (.inl hheap)) (by simp)
  | some heap =>
    by_cases hlarge : n > 131000
    · simp only [if_pos hlarge]
      exact .same (.inr (.inr (.inl hlarge))) (by simp)
    simp only [if_neg hlarge]
    by_cases hnull : region = 0
    · subst hnull
      have hok : Ok ppc64 s (.alloc n align type 0) ↔ heap ≠ .nucleus := by
        simp [Ok, hfull, hheap, hlarge]
      by_cases hnucleus : heap = .nucleus
      · rw [check_neg fun h => h hnucleus rfl]
        exact .trap (hok.not.mpr (not_not.mpr hnucleus))
      · rw [check_pos fun h => absurd h hnucleus]
        exact .same (hok.mpr hnucleus) (by simp)
    rw [check_pos fun _ => hnull]
    simp only [run_do, if_neg hnull]
    have hok : Ok ppc64 s (.alloc n align type region) ↔ align ≠ 0 ∧ region.toNat % align = 0 := by
      simp only [Ok, hfull, hheap, hlarge, if_neg hnull, reduceCtorEq, false_or]
    by_cases hzero : align ≠ 0
    · rw [check_pos hzero]
      by_cases haligned : region.toNat % align ≠ 0
      · simp only [run_do, if_pos haligned]
        exact .lost (heap, region) (hok.not.mpr fun h => haligned h.2)
      · simp only [run_do, if_neg haligned]
        have hfree := freeHeap_of_allocHeap hheap
        have hlogged := Effect.logged ⟨region, region, n, type, region, region, n⟩
          (hok.mpr ⟨hzero, not_not.mp haligned⟩) (hfree.symm ▸ hheap) rfl
        rw [OneAllocReq.region, hfree] at hlogged
        exact hlogged
    · rw [check_neg hzero]
      exact .trap (hok.not.mpr fun h => hzero h.1)

theorem larFree_effect (addr mapped : Kptr) (n : Nat) :
    Effect ppc64 s (.free addr mapped n) (larFree ppc64 s addr mapped) := by
  by_cases hempty : s.reqs = []
  · rw [larFree, if_pos hempty]
    exact .same (.inl hempty) (by simp)
  simp only [larFree, if_neg hempty]
  cases hreq : s.reqs[s.reqs.findIdx (·.prettyAddr = addr)]? with
  | none =>
    refine .unknown rfl ?_
    rintro (h | ⟨req, hmem, haddr⟩)
    · exact hempty h
    · have hlt : s.reqs.findIdx (·.prettyAddr = addr) < s.reqs.length :=
        List.findIdx_lt_length_of_exists ⟨req, hmem, decide_eq_true haddr⟩
      exact absurd (List.getElem?_eq_none_iff.mp hreq) (Nat.not_le.mpr hlt)
  | some req =>
    obtain ⟨hlt, hget⟩ := List.getElem?_eq_some_iff.mp hreq
    have haddr : req.prettyAddr = addr := by
      rw [← hget]
      exact of_decide_eq_true (List.findIdx_getElem (w := hlt))
    by_cases hmapped : req.prettyMappedAddr ≠ mapped
    · simp only [if_pos hmapped]
      exact .same (.inr ⟨req, List.mem_of_getElem? hreq, haddr⟩) (by simp)
    · simp only [if_neg hmapped]
      exact .freed _ req hreq ⟨mapped, n, by rw [haddr]⟩

theorem call_effect (ppc64 : Bool) (s : State) (c : Call) : Effect ppc64 s c (call ppc64 s c) := by
  cases c with
  | alloc n align type region => exact larAlloc_effect n align type region
  | free addr mapped n => exact larFree_effect addr mapped n

/-- A call that is all right does not fail and loses nothing. -/
theorem Inv.call (h : Inv ppc64 lost s) (hok : Ok ppc64 s c) :
    ∃ s' answer, call ppc64 s c = some (s', answer) ∧ Inv ppc64 lost s' := by
  generalize hcall : AllocReqs.call ppc64 s c = r
  cases hcall ▸ call_effect ppc64 s c with
  | same => exact ⟨_, _, rfl, h⟩
  | lost _ hnot | trap hnot | unknown _ hnot => exact absurd hok hnot
  | logged req _ htype haddr =>
    refine ⟨_, _, rfl, ?_, ?_, ?_⟩
    · rw [h.regions, ← Multiset.add_cons, Multiset.cons_coe]
      have hperm := (perm_append_singleton req s.reqs).map (OneAllocReq.region ppc64)
      exact congrArg (lost + ·) (Multiset.coe_eq_coe.mpr hperm.symm)
    · exact forall_mem_append.mpr ⟨h.type, forall_mem_singleton.mpr htype⟩
    · exact forall_mem_append.mpr ⟨h.addr, forall_mem_singleton.mpr haddr⟩
  | freed i req hreq _ =>
    have hperm := (cons_swapRemove_perm hreq).map (·.region ppc64)
    have hcons : s.regions = req.region ppc64 ::ₘ
        (lost + ((swapRemove s.reqs i).map (·.region ppc64) : Multiset (Heap × Kptr))) := by
      rw [h.regions, ← Multiset.coe_eq_coe.mpr hperm, map_cons, ← Multiset.cons_coe,
        Multiset.add_cons]
    have hmem : ∀ r ∈ swapRemove s.reqs i, r ∈ s.reqs := fun r hr =>
      (cons_swapRemove_perm hreq).mem_iff.mp (mem_cons_of_mem _ hr)
    rw [hcons, release_cons]
    exact ⟨_, _, rfl, rfl, fun r hr => h.type r (hmem r hr), fun r hr => h.addr r (hmem r hr)⟩

/-- Another call loses a region, or frees nothing without an error. -/
theorem Inv.lost_of_step (h : Inv ppc64 lost s) (hok : ¬ Ok ppc64 s c)
    (hstep : step ppc64 s c = some s') :
    (∃ r, Inv ppc64 (r ::ₘ lost) s') ∨ (s' = s ∧ ∃ addr mapped n, c = .free addr mapped n ∧
      ¬ s.Logged addr ∧ AllocReqs.call ppc64 s c = some (s, ⟨0, none⟩)) := by
  obtain ⟨⟨s₁, answer⟩, hcall, rfl⟩ := Option.map_eq_some_iff.mp hstep
  generalize hr : AllocReqs.call ppc64 s c = r at hcall
  cases hr ▸ call_effect ppc64 s c with
  | same hok' | logged _ hok' => exact absurd hok' hok
  | freed i req hreq hc =>
    obtain ⟨mapped, n, rfl⟩ := hc
    exact absurd (.inr ⟨req, mem_of_getElem? hreq, rfl⟩) hok
  | trap => cases hcall
  | lost r =>
    cases hcall
    refine .inl ⟨r, ?_, h.type, h.addr⟩
    rw [Multiset.cons_add, ← h.regions]
  | unknown hc =>
    cases hcall
    subst hc
    exact .inr ⟨rfl, _, _, _, rfl, fun hlog => hok (.inr hlog), rfl⟩

/-- An address leaves the log only when it is freed. -/
theorem logged_of_step {addr : Kptr} (hstep : step ppc64 s c = some s') (h : s.Logged addr)
    (hc : ∀ mapped n, c ≠ .free addr mapped n) : s'.Logged addr := by
  obtain ⟨⟨s₁, answer⟩, hcall, rfl⟩ := Option.map_eq_some_iff.mp hstep
  generalize hr : call ppc64 s c = r at hcall
  cases hr ▸ call_effect ppc64 s c with
  | trap => cases hcall
  | same | lost | unknown => cases hcall; exact h
  | logged req =>
    cases hcall
    obtain ⟨r, hmem, haddr⟩ := h
    exact ⟨r, mem_append_left _ hmem, haddr⟩
  | freed i req hreq hfree =>
    obtain ⟨regions, -, heq⟩ := Option.map_eq_some_iff.mp hcall
    cases heq
    obtain ⟨mapped, n, rfl⟩ := hfree
    obtain ⟨r, hmem, rfl⟩ := h
    refine ⟨r, ?_, rfl⟩
    rcases mem_cons.mp ((cons_swapRemove_perm hreq).mem_iff.mpr hmem) with rfl | hmem'
    · exact absurd rfl (hc mapped n)
    · exact hmem'

/-! ## Runs -/

theorem Inv.exists_step (h : Inv ppc64 lost s) (hstep : step ppc64 s c = some s') :
    ∃ lost', Inv ppc64 lost' s' := by
  by_cases hok : Ok ppc64 s c
  · obtain ⟨s₁, answer, hcall, hinv⟩ := h.call hok
    rw [step, hcall] at hstep
    cases hstep
    exact ⟨lost, hinv⟩
  · rcases h.lost_of_step hok hstep with ⟨r, hinv⟩ | ⟨rfl, -⟩
    · exact ⟨_, hinv⟩
    · exact ⟨lost, h⟩

theorem inv_init : Inv ppc64 0 .init := ⟨rfl, by simp [State.init], by simp [State.init]⟩

variable {calls : List Call}

theorem exists_inv_of_run (hrun : calls.foldlM (step ppc64) s = some s')
    (h : ∃ lost, Inv ppc64 lost s) : ∃ lost, Inv ppc64 lost s' :=
  foldlM_keeps (I := fun s => ∃ lost, Inv ppc64 lost s) calls h
    (fun _ _ _ _ ⟨_, hinv⟩ hstep => hinv.exists_step hstep) hrun

theorem run_of_allSteps (h : Inv ppc64 lost s) (hok : AllSteps (step ppc64) (Ok ppc64) s calls) :
    ∃ s', calls.foldlM (step ppc64) s = some s' ∧ Inv ppc64 lost s' := by
  induction calls generalizing s with
  | nil => exact ⟨s, rfl, h⟩
  | cons c calls ih =>
    obtain ⟨s₁, answer, hcall, hinv⟩ := h.call hok.1
    have hstep : step ppc64 s c = some s₁ := by rw [step, hcall]; rfl
    obtain ⟨s', hrun, hinv'⟩ := ih hinv (hok.2 s₁ hstep)
    exact ⟨s', by rw [foldlM_cons, hstep]; exact hrun, hinv'⟩

/-- What is lost in a run is still there in the end. -/
theorem allSteps_of_run (h : Inv ppc64 lost s)
    (hrun : calls.foldlM (step ppc64) s = some s') (hundo : larUndo ppc64 s' = some 0)
    (hunknown : AllSteps (step ppc64) (ReportsUnknown ppc64) s calls) :
    lost = 0 ∧ AllSteps (step ppc64) (Ok ppc64) s calls := by
  induction calls generalizing s lost with
  | nil =>
    cases hrun
    rw [larUndo_eq h] at hundo
    exact ⟨Option.some.inj hundo, trivial⟩
  | cons c calls ih =>
    obtain ⟨s₁, hstep, hrest⟩ := exists_of_bind hrun
    obtain ⟨hhere, hthere⟩ := hunknown
    by_cases hok : Ok ppc64 s c
    · obtain ⟨s₂, answer, hcall, hinv⟩ := h.call hok
      obtain rfl : s₂ = s₁ := by
        rw [step, hcall] at hstep
        exact Option.some.inj hstep
      obtain ⟨hlost, hall⟩ := ih hinv hrest (hthere _ hstep)
      refine ⟨hlost, hok, fun s₃ hs₃ => ?_⟩
      obtain rfl := Option.mem_unique hstep hs₃
      exact hall
    · rcases h.lost_of_step hok hstep with ⟨r, hinv⟩ | ⟨-, addr, mapped, n, rfl, hlog, hcall⟩
      · exact absurd (ih hinv hrest (hthere _ hstep)).1 Multiset.cons_ne_zero
      · obtain ⟨answer, hcode, hcall'⟩ := hhere addr mapped n rfl hlog
        rw [hcall] at hcall'
        cases hcall'
        exact absurd rfl hcode

/-- What was reported is in the log. -/
theorem logged_of_result {code : Nat} {addr mapped : Kptr} (haddr : addr ≠ 0)
    (hcall : call ppc64 s c = some (s', ⟨code, some (addr, mapped)⟩)) : s'.Logged addr := by
  generalize hr : call ppc64 s c = r at hcall
  cases hr ▸ call_effect ppc64 s c with
  | same _ hnull =>
    cases hcall
    exact absurd (hnull _ rfl) haddr
  | logged req =>
    cases hcall
    exact ⟨req, by simp, rfl⟩
  | lost => cases hcall; exact absurd rfl haddr
  | trap | unknown => cases hcall
  | freed =>
    obtain ⟨regions, -, heq⟩ := Option.map_eq_some_iff.mp hcall
    cases heq

theorem Inv.mem_regions (h : Inv ppc64 lost s) {addr : Kptr} (hlog : s.Logged addr) :
    ∃ heap, (heap, addr) ∈ s.regions := by
  obtain ⟨req, hmem, rfl⟩ := hlog
  refine ⟨freeHeap ppc64 req.allocType, ?_⟩
  rw [h.regions, ← h.addr req hmem]
  have hregion : req.region ppc64 ∈ s.reqs.map (·.region ppc64) := mem_map_of_mem hmem
  exact Multiset.mem_add.mpr (.inr (Multiset.mem_coe.mpr hregion))

/-- **No kernel memory is leaked or freed twice** exactly if the kernel's answers are aligned as
required, and addresses are freed that are logged. -/
theorem accounted_iff (ppc64 : Bool) (calls : List Call) :
    Accounted ppc64 calls ↔ AllSteps (step ppc64) (Ok ppc64) .init calls := by
  constructor
  · intro h
    obtain ⟨s, hrun, hundo⟩ := h.freed
    exact (allSteps_of_run inv_init hrun hundo h.unknown).2
  · intro hok
    constructor
    · obtain ⟨s, hrun, hinv⟩ := run_of_allSteps inv_init hok
      exact ⟨s, hrun, larUndo_eq hinv⟩
    · intro pre mid c s s₁ s₂ code addr mapped _ hpre hcall haddr hmid hrun
      have hstep : step ppc64 s c = some s₁ := by rw [step, hcall]; rfl
      have hlog : s₂.Logged addr := foldlM_keeps (I := (State.Logged · addr)) mid
        (logged_of_result haddr hcall) (fun c' hc' _ _ hlog hstep' =>
          logged_of_step hstep' hlog fun _ _ heq => hmid _ _ (heq ▸ hc')) hrun
      obtain ⟨lost, hinv⟩ := exists_inv_of_run hpre ⟨0, inv_init⟩
      obtain ⟨lost₂, hinv₂⟩ := exists_inv_of_run hrun (hinv.exists_step hstep)
      exact hinv₂.mem_regions hlog
    · refine hok.mono ?_
      rintro s _ hok addr mapped n rfl hlog
      have hempty : s.reqs = [] := hok.resolve_right hlog
      exact ⟨⟨1, none⟩, Nat.one_ne_zero, by rw [call, larFree, if_pos hempty]⟩

/-- A page that does not begin at a page boundary is lost. -/
theorem not_accounted_unaligned : ¬ Accounted false [.alloc 64 4096 0 0x1010] := by
  intro h
  obtain ⟨s, hrun, hundo⟩ := h.freed
  cases hrun
  exact absurd hundo (by decide)

end Kerninst.AllocReqs
