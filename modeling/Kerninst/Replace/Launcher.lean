import Kerninst.Sparc.Relocate
import Kerninst.Sparc.UsualJumpSound
import Kerninst.Replace.KernelDriver

/-!
# Launchers

A launcher replaces one instruction by a transfer of control to somewhere else. There are three:

* an annulled branch, if the target is near;
* an annulled branch to a springboard, which is three words in some reserved memory near by
  that go on to the target;
* a call, for the callers of a function.

All of them can be installed over the original instruction or over another launcher. In the
second case the other one must have recorded the same original instruction, or an assertion
fails. A springboard is not given back when its launcher is uninstalled, since some thread may
still be in it, but by an event some time later.

`TransfersTo` says what the words in memory do when they are executed.
-/

namespace Kerninst

open KernelDriver SparcInstr UsualJump List Function

open KernelDriver (wordsFrom Patches)

/-- `SpringBoardHeap::alloc`: the items in use, the range, and the two addresses that the item
should not conflict with in the cache. -/
abbrev SpringBoardHeap := List Kptr → Kptr × Kptr → Kptr → Kptr → Option Kptr

/-- What launchers act on. An event frees a springboard, and holds its original contents. -/
structure Kernel where
  driver : KernelDriver
  springboards : List Kptr
  events : List (Kptr × List Word)

inductive LauncherKind
  | quickBranch
  | springboard
  | call
deriving DecidableEq

/-- Only a springboard launcher gets an item, when it is installed. -/
structure Launcher where
  kind : LauncherKind
  fromAddr : Kptr
  toAddr : Kptr
  whenAllDoneRestoreToThisInsn : Word
  installed : Bool
  theItem : Option Kptr
  origSbContents : List Word
deriving DecidableEq

/-- The branch, if the target is in range of one. -/
def makeQuickBranch (fromaddr toaddr : Kptr) (annulled : Bool) : Option Word := do
  let inBPcc ← inRangeOfBPcc fromaddr toaddr
  if inBPcc then
    bpcc always annulled true true (baDisplacement fromaddr toaddr)
  else do
    let inBicc ← inRangeOfBicc fromaddr toaddr
    check inBicc
    bicc always annulled (baDisplacement fromaddr toaddr)

/-- The first item in range of a `BPcc`, or else of a `Bicc`. -/
def allocSpringboard (heap : SpringBoardHeap) (springboards : List Kptr)
    (fromAddr toAddr : Kptr) : Option Kptr := do
  let bpccRange ← getRangeOf fromAddr 21
  match heap springboards bpccRange fromAddr toAddr with
  | some item => some item
  | none => do
    let biccRange ← getRangeOf fromAddr 24
    heap springboards biccRange fromAddr toAddr

/-- `begin()`, if there is an integer register. -/
def beginIntregs (freeRegs : SparcRegSet) : Option Reg :=
  (List.finRange 32).find? fun r => freeRegs.mem (.int r)

/-- The code in a springboard: the shapes of `usualJump` that need no free register, `%o7`, or
some other register. -/
def springboardContents (freeRegs : SparcRegSet) (fromAddr toAddr sbItemAddr : Kptr) :
    Option (List Word) := do
  let inCall ← inRangeOfCall fromAddr toAddr
  check inCall
  match beginIntregs freeRegs with
  | none => (saveCallRestore sbItemAddr toAddr).generate
  | some tempreg =>
    if freeRegs.mem (.int Reg.o7) then do
      let callNop ← (callNop sbItemAddr toAddr).generate
      let nop ← nop
      pure (callNop ++ [nop])
    else (moveCallMove sbItemAddr toAddr tempreg).generate

/-- `freeUpSpringboardInternalEvent::doNow`, for the event that was posted first. -/
def Kernel.doNow (k : Kernel) : Option Kernel :=
  match k.events with
  | [] => some k
  | event :: events => do
    let driver ← k.driver.popWords event.1 event.2
    pure { driver := driver, springboards := k.springboards.erase event.1, events := events }

namespace Launcher

/-- A launcher that is not installed. -/
def new (kind : LauncherKind) (fromAddr toAddr : Kptr) (restoreTo : Word) : Launcher :=
  ⟨kind, fromAddr, toAddr, restoreTo, false, none, []⟩

def pickAnAnnulledLauncher (fromAddr toAddr : Kptr) (restoreTo : Word) : Option Launcher := do
  let inBicc ← inRangeOfBicc fromAddr toAddr
  pure (new (if inBicc then .quickBranch else .springboard) fromAddr toAddr restoreTo)

def callLauncher (fromAddr toAddr : Kptr) (restoreTo : Word) : Option Launcher := do
  let inCall ← inRangeOfCall fromAddr toAddr
  check inCall
  pure (new .call fromAddr toAddr restoreTo)

def createSplicingInsn (l : Launcher) : Option Word :=
  match l.kind with
  | .quickBranch => makeQuickBranch l.fromAddr l.toAddr true
  | .springboard => do
    let sbItemAddr ← l.theItem
    let inBicc ← inRangeOfBicc l.fromAddr sbItemAddr
    check inBicc
    makeQuickBranch l.fromAddr sbItemAddr true
  | .call => callandlink l.toAddr l.fromAddr

/-- Allocate and write the springboard. -/
def doInstallCommon (heap : SpringBoardHeap) (freeRegs : SparcRegSet) (k : Kernel) (l : Launcher) :
    Option (Kernel × Launcher) := do
  let sbItemAddr ← allocSpringboard heap k.springboards l.fromAddr l.toAddr
  let inBicc ← inRangeOfBicc l.fromAddr sbItemAddr
  check inBicc
  let contents ← springboardContents freeRegs l.fromAddr l.toAddr sbItemAddr
  let orig := l.origSbContents ++ (wordsFrom sbItemAddr contents.length).map k.driver.peek1Word
  let driver ← k.driver.pushWords sbItemAddr (orig.zip contents)
  pure ({ k with driver := driver, springboards := sbItemAddr :: k.springboards },
    { l with theItem := some sbItemAddr, origSbContents := orig })

/-- What is done before the launch site is written. -/
def prepare (heap : SpringBoardHeap) (freeRegs : SparcRegSet) (k : Kernel) (l : Launcher) :
    Option (Kernel × Launcher) :=
  match l.kind with
  | .springboard => l.doInstallCommon heap freeRegs k
  | _ => some (k, l)

/-- Installing, with the undoable poke of the launch site that is to be used. -/
def doInstall (heap : SpringBoardHeap) (freeRegs : SparcRegSet) (k : Kernel) (l : Launcher)
    (poke : KernelDriver → Word → Option KernelDriver) : Option (Kernel × Launcher) := do
  let prepared ← l.prepare heap freeRegs k
  let splicingInsn ← prepared.2.createSplicingInsn
  let driver ← poke prepared.1.driver splicingInsn
  pure ({ prepared.1 with driver := driver }, { prepared.2 with installed := true })

def installNotOverwritingExisting (heap : SpringBoardHeap) (freeRegs : SparcRegSet) (k : Kernel)
    (l : Launcher) : Option (Kernel × Launcher) :=
  if l.installed then some (k, l)
  else l.doInstall heap freeRegs k fun driver splicingInsn =>
    driver.poke1WordUndoablePush l.fromAddr l.whenAllDoneRestoreToThisInsn splicingInsn 0

def installOverwritingExisting (heap : SpringBoardHeap) (freeRegs : SparcRegSet) (k : Kernel)
    (l : Launcher) (otherGuysCurrInstalledInsn otherGuysRestoreToInsn : Word) :
    Option (Kernel × Launcher) :=
  if l.installed then some (k, l)
  else do
    check (otherGuysRestoreToInsn = l.whenAllDoneRestoreToThisInsn)
    l.doInstall heap freeRegs k fun driver splicingInsn =>
      driver.poke1WordUndoableChangeTopOfStack l.fromAddr otherGuysCurrInstalledInsn splicingInsn 0

/-- A springboard is freed later. -/
def freeLater (k : Kernel) (l : Launcher) : Kernel :=
  match l.theItem with
  | some item => { k with events := k.events ++ [(item, l.origSbContents)] }
  | none => k

def unInstallNoOtherAlreadyInstalled (k : Kernel) (l : Launcher) : Option Kernel :=
  if l.installed then do
    let splicingInsn ← l.createSplicingInsn
    let driver ← k.driver.undoPoke1WordPop l.fromAddr splicingInsn l.whenAllDoneRestoreToThisInsn
    pure (l.freeLater { k with driver := driver })
  else some k

def unInstallAnotherAlreadyInstalled (k : Kernel) (l : Launcher) : Kernel :=
  if l.installed then l.freeLater k else k

end Launcher

/-! ## Executing what is in memory -/

/-- The words in memory, as code. -/
def codeOf (memory : Kptr → Word) : Code := fun addr => some (newSlot (memory addr))

/-- Whatever the state of the machine, executing memory from `addr` on leads to `target`. -/
def TransfersTo (memory : Kptr → Word) (addr target : Kptr) : Prop :=
  ∀ (ρ : Type) (sem : Sem ρ) (σ : Arch ρ) (k : Nat),
    ∃ σ', Reaches sem (codeOf memory) (Cpu.seq addr σ k) (Cpu.seq target σ' k)

/-- The word, at `addr`, is a call of `target`. -/
def IsCallTo (word : Word) (addr target : Kptr) : Prop :=
  ∃ disp, decode word = .call disp ∧ addr + BitVec.ofInt 64 disp = target

section Executing

variable {memory : Kptr → Word} {a b c : Kptr}

theorem TransfersTo.trans (h : TransfersTo memory a b) (h' : TransfersTo memory b c) :
    TransfersTo memory a c := by
  intro ρ sem σ k
  obtain ⟨σ₁, hrun⟩ := h ρ sem σ k
  obtain ⟨σ₂, hrun'⟩ := h' ρ sem σ₁ k
  exact ⟨σ₂, hrun.trans hrun'⟩

/-- An annulled branch that is always taken. -/
theorem transfersTo_of_branch {kind : BranchKind} {xcc : Bool} {disp : Int}
    (hkind : kind.tested = .icc xcc) (hd : decode (memory a) = .branch ⟨kind, always, true, disp⟩)
    (htarget : a + BitVec.ofInt 64 disp = b) : TransfersTo memory a b := by
  intro ρ sem σ k
  have halways : Branch.isAlways ⟨kind, always, true, disp⟩ = true := by
    cases kind with
    | bpr => cases hkind
    | _ => rfl
  refine ⟨σ, Reaches.single (step_branch rfl hd ?_)⟩
  simp [branchTo, hkind, Arch.holds, testIcc_always, htarget, halways]

theorem transfersTo_of_plain (hplain : (decode (memory a)).isPlain) :
    TransfersTo memory a (a + 4) := by
  intro ρ sem σ k
  have hstep : step sem (codeOf memory) (Cpu.seq a σ k) =
      some (Cpu.seq (a + 4) (exec sem (memory a) a σ) k) :=
    step_plain (s := newSlot (memory a)) rfl hplain
  exact ⟨_, Reaches.single hstep⟩

/-- A call, with an instruction in its delay slot that leaves control alone. -/
theorem transfersTo_of_call {disp : Int} (hd : decode (memory a) = .call disp)
    (htarget : a + BitVec.ofInt 64 disp = b) (hplain : (decode (memory (a + 4))).isPlain) :
    TransfersTo memory a b := by
  intro ρ sem σ k
  have hcall : step sem (codeOf memory) (Cpu.seq a σ k) = some ⟨a + 4, b, σ.write Reg.o7 a, k⟩ :=
    step_call (s := newSlot (memory a)) rfl hd htarget
  have hdelay : step sem (codeOf memory) ⟨a + 4, b, σ.write Reg.o7 a, k⟩ =
      some (Cpu.seq b (exec sem (memory (a + 4)) (a + 4) (σ.write Reg.o7 a)) k) :=
    step_plain (s := newSlot (memory (a + 4))) rfl hplain
  exact ⟨_, (Reaches.single hcall).tail hdelay⟩

end Executing

/-! ## What is emitted -/

section Emitted

variable {f t item : Kptr}

/-- **The branch** goes to its target. -/
theorem makeQuickBranch_spec (hlow : f.toNat < 2 ^ 63) (hrange : inRangeOfBicc f t = some true)
    (hf : f.toNat % 4 = 0) (ht : t.toNat % 4 = 0) :
    ∃ w, makeQuickBranch f t true = some w ∧
      ∀ memory : Kptr → Word, memory f = w → TransfersTo memory f t := by
  have hreach : InReach 24 f t := inReach_of_inRangeOf (by decide) hrange
  obtain ⟨inBPcc, hBPcc, hiff⟩ := inRangeOf_eq (n := 21) (by decide) hlow t
  cases inBPcc with
  | true =>
    have hdisp := toInt_sub_of_inReach (by decide) hreach
    obtain ⟨⟨h₁, h₂⟩, -⟩ := hiff.mp rfl
    obtain ⟨w, hw, hd⟩ := bpcc_spec true true true (by decide : always < 16)
      (show Encodable 19 ((t.toNat : Int) - f.toNat) by unfold Encodable; omega)
    refine ⟨w, ?_, fun memory hmem => transfersTo_of_branch rfl (hmem ▸ hd) ?_⟩
    · rw [makeQuickBranch, inRangeOfBPcc, hBPcc, baDisplacement_eq hreach]
      exact hw
    · rw [← hdisp, add_ofInt_sub]
  | false =>
    obtain ⟨w, disp, hw, hd, htarget⟩ := ba_spec hreach hf ht true
    refine ⟨w, ?_, fun memory hmem => transfersTo_of_branch rfl (hmem ▸ hd) htarget⟩
    simp only [makeQuickBranch, inRangeOfBPcc, hBPcc, hrange, check_pos, run_do]
    exact hw

/-- **The springboard** goes on to the target, whatever registers are free. -/
theorem springboardContents_spec (freeRegs : SparcRegSet) (hrange : inRangeOfCall f t = some true)
    (hitem : inRangeOfCall item t = some true) (hitem4 : inRangeOfCall (item + 4) t = some true)
    (halign : item.toNat % 4 = 0) (ht : t.toNat % 4 = 0) :
    ∃ ws, springboardContents freeRegs f t item = some ws ∧ ws.length = 3 ∧
      ∀ memory : Kptr → Word, (wordsFrom item 3).map memory = ws → TransfersTo memory item t := by
  have halign4 : (item + 4).toNat % 4 = 0 := by bv_omega
  obtain ⟨call, disp, hcall, hd, htarget⟩ := callandlink_spec hitem4 ht halign4
  -- a call in the second word, between two instructions that leave control alone
  have hmiddle : ∀ first last, (decode first).isPlain → (decode last).isPlain →
      ∀ memory : Kptr → Word, (wordsFrom item 3).map memory = [first, call, last] →
        TransfersTo memory item t := by
    intro first last hfirst hlast memory hmap
    obtain ⟨rfl, rfl, rfl⟩ := hmap
    exact (transfersTo_of_plain hfirst).trans (transfersTo_of_call hd htarget hlast)
  simp only [springboardContents, hrange, check_pos, run_do]
  cases beginIntregs freeRegs with
  | none =>
    obtain ⟨save, hsave, hds⟩ := save_spec
      (by decide : -2 ^ 12 ≤ -minFrameAlignedNumBytes) (by decide)
    obtain ⟨restore, hrestore, hdr⟩ := restore_spec
    refine ⟨[save, call, restore], ?_, rfl,
      hmiddle save restore (by rw [hds]; rfl) (by rw [hdr]; rfl)⟩
    simp only [generate, hsave, hcall, hrestore]
    rfl
  | some tempreg =>
    dsimp only
    split
    · -- `%o7` is free: the call comes first
      obtain ⟨call, disp, hcall, hd, htarget⟩ := callandlink_spec hitem ht halign
      obtain ⟨nop, hnop, hdn⟩ := nop_spec
      refine ⟨[call, nop, nop], ?_, rfl, fun memory hmap => ?_⟩
      · simp only [generate, hcall, hnop]
        rfl
      · simp only [wordsFrom, map_cons, map_nil, cons.injEq, and_true] at hmap
        obtain ⟨rfl, hdelay, -⟩ := hmap
        exact transfersTo_of_call hd htarget (by rw [hdelay, hdn]; rfl)
    · obtain ⟨mov, hmov, hdm⟩ := mov_spec Reg.o7 tempreg
      obtain ⟨movBack, hmovBack, hdb⟩ := mov_spec tempreg Reg.o7
      refine ⟨[mov, call, movBack], ?_, rfl,
        hmiddle mov movBack (by rw [hdm]; rfl) (by rw [hdb]; rfl)⟩
      simp only [generate, hmov, hcall, hmovBack]
      rfl

end Emitted

/-! ## Springboards in use -/

/-- The heap hands out items that are not in use, of three words each. -/
structure HeapOk (heap : SpringBoardHeap) (items : Set Kptr) : Prop where
  alloc : ∀ {springboards range f t item}, heap springboards range f t = some item →
    item ∈ items ∧ item ∉ springboards
  aligned : ∀ item ∈ items, item.toNat % 4 = 0
  disjoint : ∀ item ∈ items, ∀ item' ∈ items, item ≠ item' →
    (wordsFrom item 3).Disjoint (wordsFrom item' 3)

/-- A springboard in use, with the contents that it is to get back. -/
structure Holding (k : Kernel) (items : Set Kptr) (d : KernelDriver) (p : Patches)
    (event : Kptr × List Word) : Prop where
  item : event.1 ∈ items
  inUse : event.1 ∈ k.springboards
  orig : event.2 = (wordsFrom event.1 3).map d.memory
  patched : ∀ a ∈ wordsFrom event.1 3, ∃ patch, p a = some patch

/-- The kernel is `d` with patches, which leave free springboards alone. -/
structure Kernel.Patched (k : Kernel) (items : Set Kptr) (d : KernelDriver) (p : Patches) :
    Prop where
  driver : k.driver = d.patchedWith p
  free : ∀ item ∈ items, item ∉ k.springboards → ∀ a ∈ wordsFrom item 3, p a = none
  pending : ∀ event ∈ k.events, Holding k items d p event
  distinct : (k.events.map Prod.fst).Nodup

/-- The address is in no springboard. -/
def Clear (items : Set Kptr) (a : Kptr) : Prop := ∀ item ∈ items, a ∉ wordsFrom item 3

section Springboards

variable {heap : SpringBoardHeap} {items : Set Kptr} {d : KernelDriver} {p q : Patches}
  {k k' : Kernel} {f t item : Kptr} {event : Kptr × List Word}

theorem wordsFrom_nodup (item : Kptr) : (wordsFrom item 3).Nodup := by
  have h₁ : item ≠ item + 4 := by bv_omega
  have h₂ : item ≠ item + 4 + 4 := by bv_omega
  have h₃ : item + 4 ≠ item + 4 + 4 := by bv_omega
  simp only [wordsFrom, nodup_cons, mem_cons, not_mem_nil, or_false, not_or,
    not_false_eq_true, nodup_nil, and_true]
  exact ⟨⟨h₁, h₂⟩, h₃⟩

theorem HeapOk.allocSpringboard_mem (hheap : HeapOk heap items) {springboards : List Kptr}
    (h : allocSpringboard heap springboards f t = some item) :
    item ∈ items ∧ item ∉ springboards := by
  obtain ⟨range, -, h⟩ := exists_of_bind h
  split at h
  next hnear =>
    obtain rfl := Option.some.inj h
    exact hheap.alloc hnear
  next =>
    obtain ⟨range, -, hfar⟩ := exists_of_bind h
    exact hheap.alloc hfar

theorem Holding.congr (h : Holding k items d p event)
    (hinUse : event.1 ∈ k.springboards → event.1 ∈ k'.springboards)
    (hsame : ∀ a ∈ wordsFrom event.1 3, q a = p a) : Holding k' items d q event where
  item := h.item
  inUse := hinUse h.inUse
  orig := h.orig
  patched a ha := hsame a ha ▸ h.patched a ha

theorem Kernel.Patched.with_driver (hk : k.Patched items d p) :
    { k with driver := d.patchedWith p } = k := by
  rw [← hk.driver]

/-- Changing a patch outside of the springboards. -/
theorem Kernel.Patched.update (hk : k.Patched items d p) (hclear : Clear items f)
    (patch : Option (Word × Nat)) :
    Patched { k with driver := d.patchedWith (update p f patch) } items d (update p f patch) := by
  have hsame : ∀ item ∈ items, ∀ a ∈ wordsFrom item 3, Function.update p f patch a = p a := by
    intro item hitem a ha
    exact Function.update_of_ne (ne_of_mem_of_not_mem ha (hclear item hitem)) _ _
  refine ⟨rfl, fun item hitem hfree a ha => ?_, fun event he => ?_, hk.distinct⟩
  · rw [hsame item hitem a ha]
    exact hk.free item hitem hfree a ha
  · exact (hk.pending event he).congr id (hsame event.1 (hk.pending event he).item)

/-- Taking a free springboard into use. -/
theorem Kernel.Patched.alloc (hk : k.Patched items d p) (hheap : HeapOk heap items)
    (hmem : item ∈ items) (hfree : item ∉ k.springboards)
    (hsame : ∀ a, a ∉ wordsFrom item 3 → q a = p a) :
    Patched ⟨d.patchedWith q, item :: k.springboards, k.events⟩ items d q := by
  have hother : ∀ item' ∈ items, item' ≠ item → ∀ a ∈ wordsFrom item' 3, q a = p a := by
    intro item' hitem' hne a ha
    exact hsame a (hheap.disjoint item' hitem' item hmem hne ha)
  refine ⟨rfl, fun item' hitem' hnotMem a ha => ?_, fun event he => ?_, hk.distinct⟩
  · obtain ⟨hne, hnotMem⟩ := ne_and_not_mem_of_not_mem_cons hnotMem
    rw [hother item' hitem' hne a ha]
    exact hk.free item' hitem' hnotMem a ha
  · have hpending := hk.pending event he
    have hne : event.1 ≠ item := ne_of_mem_of_not_mem hpending.inUse hfree
    exact hpending.congr (mem_cons_of_mem _) (hother event.1 hpending.item hne)

/-- **Freeing a springboard** leaves all else as it is. -/
theorem Kernel.Patched.doNow (hheap : HeapOk heap items) (hd : d.Coherent)
    (hk : k.Patched items d p) :
    ∃ k' q, k.doNow = some k' ∧ k'.Patched items d q ∧
      (∀ a, (∀ event ∈ k.events, a ∉ wordsFrom event.1 3) → q a = p a) ∧
      (∀ item ∈ k.springboards, item ∉ k.events.map Prod.fst → item ∈ k'.springboards) ∧
      ∀ event ∈ k'.events, event ∈ k.events := by
  cases hevents : k.events with
  | nil =>
    refine ⟨k, p, by rw [Kernel.doNow, hevents], hk, fun a _ => rfl, fun item h _ => h, ?_⟩
    intro event he
    rwa [hevents] at he
  | cons event events =>
    have hheld := hk.pending event (by rw [hevents]; exact mem_cons_self ..)
    obtain ⟨hnotMem, hnodup⟩ : event.1 ∉ events.map Prod.fst ∧ (events.map Prod.fst).Nodup := by
      have hdistinct := hk.distinct
      rw [hevents, map_cons] at hdistinct
      exact nodup_cons.mp hdistinct
    obtain ⟨q, hpop, hnone, hsame⟩ :=
      patchedWith_popWords hd 3 (wordsFrom_nodup event.1) hheld.patched
    -- the words of the other springboards
    have hother : ∀ item ∈ items, item ≠ event.1 → ∀ a ∈ wordsFrom item 3, q a = p a := by
      intro item hitem hne a ha
      exact hsame a (hheap.disjoint item hitem event.1 hheld.item hne ha)
    refine ⟨⟨d.patchedWith q, k.springboards.erase event.1, events⟩, q, ?_, ⟨rfl, ?_, ?_, hnodup⟩,
      ?_, ?_, ?_⟩
    · simp [Kernel.doNow, hevents, hk.driver, hheld.orig, hpop]
    · intro item hitem hfree a ha
      rcases eq_or_ne item event.1 with rfl | hne
      · exact hnone a ha
      · rw [hother item hitem hne a ha]
        exact hk.free item hitem (fun h => hfree ((mem_erase_of_ne hne).mpr h)) a ha
    · intro e he
      have hpending := hk.pending e (by rw [hevents]; exact mem_cons_of_mem _ he)
      have hne : e.1 ≠ event.1 := ne_of_mem_of_not_mem (mem_map_of_mem he) hnotMem
      exact hpending.congr (mem_erase_of_ne hne).mpr (hother e.1 hpending.item hne)
    · intro a ha
      exact hsame a (ha event (mem_cons_self ..))
    · intro item hitem hnotEvent
      have hne : item ≠ event.1 := fun h => hnotEvent (by simp [h])
      exact (mem_erase_of_ne hne).mpr hitem
    · intro e he
      exact mem_cons_of_mem _ he

end Springboards

/-! ## Installing and uninstalling -/

namespace Launcher

/-- The words that control goes through. -/
def footprint (l : Launcher) : List Kptr :=
  l.fromAddr :: l.theItem.elim [] (wordsFrom · 3)

/-- The launcher is in place: what it changed is patched, and can be put back, and control goes
where it should. -/
structure Installed (l : Launcher) (k : Kernel) (items : Set Kptr) (d : KernelDriver)
    (p : Patches) : Prop where
  installed : l.installed = true
  restoreTo : l.whenAllDoneRestoreToThisInsn = d.memory l.fromAddr
  splice : ∃ w, l.createSplicingInsn = some w ∧ p l.fromAddr = some (w, 0)
  holding : ∀ item, l.theItem = some item →
    Holding k items d p (item, l.origSbContents) ∧ item ∉ k.events.map Prod.fst
  goes : ∀ memory : Kptr → Word, (∀ a ∈ l.footprint, memory a = (d.patchedWith p).memory a) →
    TransfersTo memory l.fromAddr l.toAddr

variable {heap : SpringBoardHeap} {items : Set Kptr} {d : KernelDriver} {p q : Patches}
  {k k' : Kernel} {f t item : Kptr} {l : Launcher} {freeRegs : SparcRegSet}

theorem mem_footprint {a : Kptr} : a ∈ l.footprint ↔
    a = l.fromAddr ∨ ∃ item, l.theItem = some item ∧ a ∈ wordsFrom item 3 := by
  rw [footprint, mem_cons]
  cases l.theItem with
  | none | some item => simp

theorem Installed.congr (hl : l.Installed k items d p) (hsame : ∀ a ∈ l.footprint, q a = p a)
    (hinUse : ∀ item ∈ k.springboards, item ∉ k.events.map Prod.fst → item ∈ k'.springboards)
    (hevents : ∀ event ∈ k'.events, event ∈ k.events) : l.Installed k' items d q where
  installed := hl.installed
  restoreTo := hl.restoreTo
  splice := by
    rw [hsame l.fromAddr (mem_footprint.mpr (Or.inl rfl))]
    exact hl.splice
  holding item hitem := by
    obtain ⟨hheld, hnotEvent⟩ := hl.holding item hitem
    refine ⟨hheld.congr (fun h => hinUse item h hnotEvent) fun a ha => hsame a ?_, fun h => ?_⟩
    · exact mem_footprint.mpr (Or.inr ⟨item, hitem, ha⟩)
    · obtain ⟨event, he, rfl⟩ := mem_map.mp h
      exact hnotEvent (mem_map_of_mem (hevents event he))
  goes memory hmem := hl.goes memory fun a ha => by
    rw [hmem a ha]
    exact patchedWith_memory_congr (hsame a ha)

/-- Freeing other springboards does not affect a launcher in place. -/
theorem Installed.doNow (hheap : HeapOk heap items) (hk : k.Patched items d p)
    (hl : l.Installed k items d p) (hclear : Clear items l.fromAddr)
    (hsame : ∀ a, (∀ event ∈ k.events, a ∉ wordsFrom event.1 3) → q a = p a)
    (hinUse : ∀ item ∈ k.springboards, item ∉ k.events.map Prod.fst → item ∈ k'.springboards)
    (hevents : ∀ event ∈ k'.events, event ∈ k.events) : l.Installed k' items d q := by
  refine hl.congr (fun a ha => hsame a fun event he hmem => ?_) hinUse hevents
  have hevent := (hk.pending event he).item
  rcases mem_footprint.mp ha with rfl | ⟨item, hitem, ha⟩
  · exact hclear event.1 hevent hmem
  · obtain ⟨hheld, hnotEvent⟩ := hl.holding item hitem
    have hne : item ≠ event.1 := by
      rintro rfl
      exact hnotEvent (mem_map_of_mem he)
    exact hheap.disjoint item hheld.item event.1 hevent hne ha hmem

/-- **Uninstalling** puts the original instruction back. -/
theorem Installed.unInstall (hd : d.Coherent) (hk : k.Patched items d p)
    (hl : l.Installed k items d p) (hclear : Clear items l.fromAddr) :
    ∃ k', l.unInstallNoOtherAlreadyInstalled k = some k' ∧
      k'.Patched items d (update p l.fromAddr none) := by
  obtain ⟨w, hw, hp⟩ := hl.splice
  have hkernel := hk.update hclear none
  refine ⟨l.freeLater { k with driver := d.patchedWith (update p l.fromAddr none) }, ?_, ?_⟩
  · simp [unInstallNoOtherAlreadyInstalled, hl.installed, hw, hk.driver, hl.restoreTo,
      patchedWith_pop hd hp]
  · cases hitem : l.theItem with
    | none =>
      simp only [freeLater, hitem]
      exact hkernel
    | some item =>
      obtain ⟨hheld, hnotEvent⟩ := hl.holding item hitem
      have hheld' : Holding k items d (update p l.fromAddr none) (item, l.origSbContents) :=
        hheld.congr id fun a ha =>
          update_of_ne (ne_of_mem_of_not_mem ha (hclear item hheld.item)) _ _
      simp only [freeLater, hitem]
      refine ⟨rfl, hkernel.free, fun event he => ?_, ?_⟩
      · rcases mem_append.mp he with he | he
        · exact (hkernel.pending event he).congr id fun _ _ => rfl
        · rw [mem_singleton.mp he]
          exact hheld'.congr id fun _ _ => rfl
      · rw [map_append]
        exact Nodup.append hk.distinct (nodup_singleton _) (disjoint_singleton.mpr hnotEvent)

/-- A branch reaches the target, or a springboard that reaches it. -/
def Reachable (heap : SpringBoardHeap) (springboards : List Kptr) (f t : Kptr) : Prop :=
  inRangeOfBicc f t = some true ∨
    inRangeOfBicc f t = some false ∧ inRangeOfCall f t = some true ∧
      ∃ item, allocSpringboard heap springboards f t = some item ∧
        inRangeOfBicc f item = some true ∧ inRangeOfCall item t = some true ∧
        inRangeOfCall (item + 4) t = some true

section Install

variable (hd : d.Coherent) (hk : k.Patched items d p) (hp : p f = none)

include hd hk hp

/-- Installing a launcher without a springboard. -/
theorem install_direct {kind : LauncherKind} (hkind : kind ≠ .springboard) {w : Word}
    (hw : (new kind f t (d.memory f)).createSplicingInsn = some w) :
    (new kind f t (d.memory f)).installNotOverwritingExisting heap freeRegs k =
      some ({ k with driver := d.patchedWith (update p f (some (w, 0))) },
        { new kind f t (d.memory f) with installed := true }) := by
  have hprepare : (new kind f t (d.memory f)).prepare heap freeRegs k =
      some (k, new kind f t (d.memory f)) := by
    cases kind with
    | springboard => exact absurd rfl hkind
    | _ => rfl
  have hpush : k.driver.poke1WordUndoablePush f (d.memory f) w 0 =
      some (d.patchedWith (update p f (some (w, 0)))) := by
    rw [hk.driver]
    exact patchedWith_push hd hp w 0
  simp only [installNotOverwritingExisting, doInstall, hprepare, hw, run_do]
  simp [new, hpush]

/-- Installing a launcher with a springboard. -/
theorem install_springboard (hheap : HeapOk heap items) (hclear : Clear items f)
    (hitem : allocSpringboard heap k.springboards f t = some item)
    (hnear : inRangeOfBicc f item = some true) {ws : List Word}
    (hcontents : springboardContents freeRegs f t item = some ws) (hlen : ws.length = 3) {w : Word}
    (hw : makeQuickBranch f item true = some w) :
    ∃ q, (new .springboard f t (d.memory f)).installNotOverwritingExisting heap freeRegs k =
        some (⟨d.patchedWith (update q f (some (w, 0))), item :: k.springboards, k.events⟩,
          ⟨.springboard, f, t, d.memory f, true, some item, (wordsFrom item 3).map d.memory⟩) ∧
      (wordsFrom item 3).map q = ws.map (fun w => some (w, 1)) ∧
      ∀ a, a ∉ wordsFrom item 3 → q a = p a := by
  obtain ⟨hmem, hfree⟩ := hheap.allocSpringboard_mem hitem
  have hnone := hk.free item hmem hfree
  have hpeek : (wordsFrom item 3).map (d.patchedWith p).peek1Word =
      (wordsFrom item 3).map d.memory :=
    map_congr_left fun a ha => patchedWith_memory_of_none (hnone a ha)
  have hnodup : (wordsFrom item ws.length).Nodup := hlen ▸ wordsFrom_nodup item
  have hfresh : ∀ a ∈ wordsFrom item ws.length, p a = none := by rwa [hlen]
  obtain ⟨q, hpush, hq, hsame⟩ := patchedWith_pushWords hd ws hnodup hfresh
  rw [hlen] at hpush hq hsame
  have hq0 : q f = none := (hsame f (hclear item hmem)).trans hp
  have hcommon : (new .springboard f t (d.memory f)).doInstallCommon heap freeRegs k =
      some (⟨d.patchedWith q, item :: k.springboards, k.events⟩,
        ⟨.springboard, f, t, d.memory f, false, some item, (wordsFrom item 3).map d.memory⟩) := by
    simp [doInstallCommon, new, hitem, hnear, check_pos, hcontents, hlen, hpeek, hk.driver, hpush]
  refine ⟨q, ?_, hq, hsame⟩
  simp only [installNotOverwritingExisting, doInstall, prepare]
  simp only [new, Bool.false_eq_true, if_false] at hcommon ⊢
  simp [hcommon, createSplicingInsn, hnear, check_pos, hw, patchedWith_push hd hq0]

/-- **A launcher can be installed** if its target can be reached. -/
theorem exists_installed (freeRegs : SparcRegSet) (hheap : HeapOk heap items)
    (hclear : Clear items f) (hlow : f.toNat < 2 ^ 63) (hf : f.toNat % 4 = 0) (ht : t.toNat % 4 = 0)
    (hreach : Reachable heap k.springboards f t) :
    ∃ l₀ k' l q, pickAnAnnulledLauncher f t (d.memory f) = some l₀ ∧
      l₀.installNotOverwritingExisting heap freeRegs k = some (k', l) ∧ k'.Patched items d q ∧
      l.Installed k' items d q ∧ l.fromAddr = f ∧ l.toAddr = t ∧
      ∀ a, a ≠ f → Clear items a → q a = p a := by
  rcases hreach with hnear | ⟨hfar, hcall, item, hitem, hnear, hitemCall, hitemCall4⟩
  · obtain ⟨w, hw, hgoes⟩ := makeQuickBranch_spec hlow hnear hf ht
    have hsplice : (new .quickBranch f t (d.memory f)).createSplicingInsn = some w := hw
    refine ⟨_, _, _, _, by rw [pickAnAnnulledLauncher, hnear]; rfl,
      install_direct hd hk hp (by decide) hsplice, hk.update hclear _, ?_, rfl, rfl, ?_⟩
    · refine ⟨rfl, rfl, ⟨w, hsplice, update_self ..⟩, (fun item h => nomatch h),
        fun memory hmem => hgoes memory ?_⟩
      rw [hmem f (mem_cons_self ..)]
      exact patchedWith_memory_of_some (update_self ..)
    · intro a hne _
      exact update_of_ne hne _ _
  · obtain ⟨hmem, hfree⟩ := hheap.allocSpringboard_mem hitem
    have halign := hheap.aligned item hmem
    obtain ⟨w, hw, hgoes⟩ := makeQuickBranch_spec hlow hnear hf halign
    obtain ⟨ws, hws, hlen, hon⟩ :=
      springboardContents_spec freeRegs hcall hitemCall hitemCall4 halign ht
    obtain ⟨q, hinstall, hq, hsame⟩ :=
      install_springboard hd hk hp hheap hclear hitem hnear hws hlen hw
    have hsb : ∀ a ∈ wordsFrom item 3, update q f (some (w, 0)) a = q a := fun a ha =>
      update_of_ne (ne_of_mem_of_not_mem ha (hclear item hmem)) _ _
    refine ⟨_, _, _, _, by rw [pickAnAnnulledLauncher, hfar]; rfl, hinstall,
      (hk.alloc hheap hmem hfree hsame).update hclear _,
      ⟨rfl, rfl, ⟨w, ?_, update_self ..⟩, ?_, fun memory hmemory => ?_⟩, rfl, rfl, ?_⟩
    · simp [createSplicingInsn, hnear, check_pos, hw]
    · rintro _ ⟨⟩
      refine ⟨⟨hmem, mem_cons_self .., rfl, fun a ha => ?_⟩, fun h => ?_⟩
      · have hqa : q a ∈ ws.map (fun w => some (w, 1)) := hq ▸ mem_map_of_mem ha
        obtain ⟨w', -, hw'⟩ := mem_map.mp hqa
        exact ⟨(w', 1), (hsb a ha).trans hw'.symm⟩
      · obtain ⟨event, he, rfl⟩ := mem_map.mp h
        exact hfree (hk.pending event he).inUse
    · have hword : memory f = w := by
        rw [hmemory f (mem_cons_self ..)]
        exact patchedWith_memory_of_some (update_self ..)
      have hwords : (wordsFrom item 3).map memory = ws := by
        rw [← patchedWith_memory_map hq]
        refine map_congr_left fun a ha => ?_
        rw [hmemory a (mem_cons_of_mem _ ha)]
        exact patchedWith_memory_congr (hsb a ha)
      exact (hgoes memory hword).trans (hon memory hwords)
    · intro a hne hclear'
      rw [update_of_ne hne, hsame a (hclear' item hmem)]

end Install

end Launcher

end Kerninst
