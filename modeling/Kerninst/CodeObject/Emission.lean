import Kerninst.Reloc.ResolvedOnce
import Kerninst.Sparc.BranchPolarity

/-!
# What code objects emit

To move the blocks of a function, each block is cut into code objects, and each code object is
asked to emit itself (`codeObject/src`). This module has what all of them work with. `assemble` is
the words that a list of requests to the emitter stands for, once the labels have addresses. Those
of a branch or of the load of an address are what the emitted code is resolved to
(`Emission.words_of_resolve`).

Emitting an instruction stores a pointer to it (`insnVec::appendAnInsn`), which is followed when
the labels are resolved. Several code objects pass the address of a local variable, or delete the
instruction right away. Such a request is `dangling`: nothing is known of what it refers to by
then, and it has no words.
-/

namespace Kerninst.CodeObject

open SparcInstr List Option
open BitVec (ofNat)

universe u

/-! ## Where blocks go -/

inductive HowFarAway
  | afterInlinedBlocks
  | farFarAway
deriving DecidableEq

/-- `outliningLocations`. Of the functions that are moved only the entry addresses are looked at.
The constructor puts each list of blocks into a dictionary, which takes no key twice. -/
structure OutliningLocations where
  groupUniqueId : Nat
  whereOutlinedBlocksReside : HowFarAway
  funcsBeingInlinedAndOutlined : List Kptr
  justTestingNoChanges : Bool
  inlinedBlocks : List Nat
  outlinedBlocks : List Nat
  inlined_nodup : inlinedBlocks.Nodup
  outlined_nodup : outlinedBlocks.Nodup

/-- `findModAndFn` of the module manager: the module's name and the function's. -/
abbrev FindModAndFn := Kptr → Option (String × String)

/-- `outliningMisc::getOutlinedFnModName` -/
def getOutlinedFnModName (groupUniqId : Nat) : String := "group" ++ toString groupUniqId

/-- `outliningMisc::getOutlinedFnName`. A function that was moved before has its module's name
in its own already. -/
def getOutlinedFnName (origModName fnName : String) : String :=
  if origModName.startsWith "group" then fnName else origModName ++ ":" ++ fnName

namespace OutliningLocations

variable (L : OutliningLocations)

def isBlockInlined (id : Nat) : Bool := id ∈ L.inlinedBlocks

/-- The block after `id` in its list, if any; it is an assertion that `id` is in one of them. -/
def whoIfAnyoneWillBeEmittedAfter (id : Nat) : Option (Option Nat) :=
  match L.inlinedBlocks.idxOf? id with
  | some ordering => some L.inlinedBlocks[ordering + 1]?
  | none => (L.outlinedBlocks.idxOf? id).map fun ordering => L.outlinedBlocks[ordering + 1]?

def isFuncBeingInlinedAndOutlined (destOrigAddress : Kptr) : Bool :=
  L.funcsBeingInlinedAndOutlined.contains destOrigAddress

def willInterprocBranchStillFit (destAddr : Kptr) : Bool :=
  L.justTestingNoChanges ||
    (L.whereOutlinedBlocksReside = .afterInlinedBlocks && L.isFuncBeingInlinedAndOutlined destAddr)

/-- `group<n>/<module>:<function>`, under which a moved function will be known. -/
def outlinedFnFullName (findModAndFn : FindModAndFn) (addr : Kptr) : Option String := do
  let modAndFn ← findModAndFn addr
  pure (getOutlinedFnModName L.groupUniqueId ++ "/" ++ getOutlinedFnName modAndFn.1 modAndFn.2)

end OutliningLocations

/-- `outliningLocations::getBlockLabel` -/
def getBlockLabel (id : Nat) : String := "bb_id_" ++ toString id ++ "_label"

/-! ## Iterating over registers -/

/-- Integer registers come first, from `%g0` on. -/
def allRegs : List SparcReg :=
  (List.finRange 32).map .int ++ (List.finRange 64).map .fp ++ (List.finRange 10).map .misc

/-- The registers of a set, in the order of its iterator. -/
def iterate (s : SparcRegSet) : List SparcReg := allRegs.filter s.mem

/-- `*begin()`, and `none` for the empty set. -/
def firstReg (s : SparcRegSet) : Option SparcReg := (iterate s).head?

/-- `getIntNum`, which asserts that the register is an integer register. -/
def getIntNum : SparcReg → Option Reg
  | .int r => some r
  | _ => none

/-! ## Emitting -/

/-- A request to the emitter. -/
inductive Emission
  | insn (w : Word)
  | delayInsn (w : Word)
  | branchToLabel (i : Word) (labelName : String)
  | branchToForwardLabel (i : Word) (fwdLabelName : String)
  | interprocBranchToName (i : Word) (destName : String)
  | interprocBranchToAddr (i : Word) (destAddr : Kptr)
  | labelAddr (labelName : String) (rd : Reg)
  | symAddr (symbolName : String) (rd : Reg)
  | label (labelName : String)
  /-- the request `e`, for an instruction that is gone when the labels are resolved -/
  | dangling (e : Emission)

/-- An address that is to be loaded: of a label, of a symbol, or known. -/
inductive AddrSource
  | label (labelName : String)
  | symbol (symbolName : String)
  | known (addr : Kptr)

/-- `emitLabelAddr`, `emitSymAddr` and `emitImmAddr`. -/
def AddrSource.emitTo (rd : Reg) : AddrSource → Option (List Emission)
  | .label l => some [.labelAddr l rd]
  | .symbol s => some [.symAddr s rd]
  | .known addr => do
    let ws ← genImmAddr addr rd
    pure (ws.map .insn)

/-- A jump that needs no register: `save`, the address into `%l0`, a jump there, and `restore`
in its delay slot. -/
def emitJumpInWindow (dest : AddrSource) : Option (List Emission) := do
  let save ← save (-minFrameAlignedNumBytes)
  let load ← dest.emitTo Reg.l0
  let jump ← jumpReg Reg.l0
  let restore ← restore
  pure (.insn save :: load ++ [.insn jump, .insn restore])

/-- A branch that is always taken, to a label. -/
def emitBranchAlways (annulled : Bool) (labelName : String) : Option (List Emission) := do
  let i ← bpcc UsualJump.always annulled true true 0
  pure [.branchToLabel i labelName]

/-! ## Assembling -/

/-- The addresses of labels and symbols. -/
structure Addrs where
  label : String → Kptr
  symbol : String → Kptr

/-- The branch with the displacement to `dest`. -/
def branchWords (i : Word) (pc dest : Kptr) : Option (List Slot) := do
  let w ← changeBranchOffset i (dest - pc).toInt
  pure [newSlot w]

def loadWords (rd : Reg) (addr : Kptr) : Option (List Slot) := do
  let words ← setImmAddrWords rd addr
  pure (words.2.map newSlot)

def Emission.words (a : Addrs) (pc : Kptr) : Emission → Option (List Slot)
  | .insn w => some [newSlot w]
  | .delayInsn w => some [delaySlot w]
  | .branchToLabel i l => branchWords i pc (a.label l)
  | .branchToForwardLabel i l => branchWords i pc (a.label l)
  | .interprocBranchToName i s => branchWords i pc (a.symbol s)
  | .interprocBranchToAddr i dest => branchWords i pc dest
  | .labelAddr l rd => loadWords rd (a.label l)
  | .symAddr s rd => loadWords rd (a.symbol s)
  | .label _ => some []
  | .dangling _ => none

/-- How many words there will be. -/
def Emission.size : Emission → Nat
  | .labelAddr .. | .symAddr .. => 2
  | .label _ => 0
  | .dangling e => e.size
  | _ => 1

def assemble (a : Addrs) : Kptr → List Emission → Option (List Slot)
  | _, [] => some []
  | pc, e :: es => do
    let ws ← e.words a pc
    let rest ← assemble a (pc + BitVec.ofNat 64 (4 * e.size)) es
    pure (ws ++ rest)

/-- The labels that are emitted have the addresses at which they are emitted. -/
def LabelsAt (a : Addrs) : Kptr → List Emission → Prop
  | _, [] => True
  | pc, e :: es =>
    (∀ l, e = .label l → a.label l = pc) ∧ LabelsAt a (pc + BitVec.ofNat 64 (4 * e.size)) es

def codeSize (es : List Emission) : Nat := (es.map Emission.size).sum

def AddrSource.value (a : Addrs) : AddrSource → Kptr
  | .label l => a.label l
  | .symbol s => a.symbol s
  | .known addr => addr

/-- The address can be loaded: by two instructions if it is not known yet. -/
def AddrSource.Fits (a : Addrs) : AddrSource → Prop
  | .label l => LoadFits (a.label l)
  | .symbol s => LoadFits (a.symbol s)
  | .known addr => addr.toNat < 2 ^ 44

variable {slots : List Slot}

/-! ## Assembled code -/

section Assembled

variable {a : Addrs} {pc : Kptr}

theorem length_of_loadWords {rd : Reg} {addr : Kptr} (h : loadWords rd addr = some slots) :
    slots.length = 2 := by
  simp only [loadWords, do_eq_some] at h
  obtain ⟨words, hwords, rfl⟩ := h
  rw [length_map]
  exact (length_setImmAddrWords hwords).2

theorem length_of_branchWords {i : Word} {dest : Kptr} (h : branchWords i pc dest = some slots) :
    slots.length = 1 := by
  simp only [branchWords, do_eq_some] at h
  obtain ⟨w, -, rfl⟩ := h
  rfl

theorem Emission.length_of_words {e : Emission} (h : e.words a pc = some slots) :
    slots.length = e.size := by
  cases e with
  | insn w | delayInsn w | label l => exact (some.inj h) ▸ rfl
  | branchToLabel i l | branchToForwardLabel i l | interprocBranchToName i s
  | interprocBranchToAddr i t => exact length_of_branchWords h
  | labelAddr l rd | symAddr s rd => exact length_of_loadWords h
  | dangling e => cases h

theorem length_of_assemble {es : List Emission} (h : assemble a pc es = some slots) :
    slots.length = codeSize es := by
  induction es generalizing pc slots with
  | nil => exact (some.inj h) ▸ rfl
  | cons e es ih =>
    simp only [assemble, do_eq_some] at h
    obtain ⟨ws, hws, rest, hrest, rfl⟩ := h
    rw [length_append, Emission.length_of_words hws, ih hrest]
    rfl

theorem add_codeSize_cons (pc : Kptr) (e : Emission) (es : List Emission) :
    pc + ofNat 64 (4 * e.size) + ofNat 64 (4 * codeSize es) =
      pc + ofNat 64 (4 * codeSize (e :: es)) := by
  rw [BitVec.add_assoc, ← BitVec.ofNat_add, ← Nat.mul_add]
  rfl

theorem assemble_append (es es' : List Emission) (pc : Kptr) :
    assemble a pc (es ++ es') = (assemble a pc es).bind fun slots =>
      (assemble a (pc + ofNat 64 (4 * codeSize es)) es').map (slots ++ ·) := by
  induction es generalizing pc with
  | nil => simp [assemble, codeSize]
  | cons e es ih => simp [assemble, ih, add_codeSize_cons, bind_assoc, map_eq_bind]

theorem codeSize_insns (ws : List Word) : codeSize (ws.map .insn) = ws.length := by
  induction ws with
  | nil => rfl
  | cons w ws ih =>
    change 1 + codeSize (ws.map .insn) = ws.length + 1
    rw [ih, Nat.add_comm]

theorem assemble_insns (ws : List Word) (pc : Kptr) :
    assemble a pc (ws.map .insn) = some (ws.map newSlot) := by
  induction ws generalizing pc with
  | nil => rfl
  | cons w ws ih =>
    simp [assemble, Emission.words, ih]

/-- **A request that is dangling leaves no code**, wherever it is. -/
theorem assemble_eq_none {es : List Emission} {e : Emission} (h : .dangling e ∈ es) (pc : Kptr) :
    assemble a pc es = none := by
  induction es generalizing pc with
  | nil => cases h
  | cons e' es ih =>
    rcases mem_cons.mp h with rfl | h
    · rfl
    · simp [assemble, ih h]

/-- One request with its words, and what comes after it. -/
theorem assemble_cons {e : Emission} (h : e.words a pc = some slots) (es : List Emission) :
    assemble a pc (e :: es) =
      (assemble a (pc + ofNat 64 (4 * e.size)) es).map (slots ++ ·) := by
  simp [assemble, h, map_eq_bind]

end Assembled

/-! ## Loading an address -/

section Loading

variable {ρ : Type u} (sem : Sem ρ) (rd : Reg)

theorem genImmAddrGeneric64_zero : ∃ ws, genImmAddrGeneric64 0 rd true = some ws := by
  obtain ⟨hi, hhi, -, -⟩ := line_sethi idleSem rd (by decide : 0 < 2 ^ 32)
  obtain ⟨lo, hlo, -, -⟩ := line_orImm idleSem rd rd (by decide : 0 < 2 ^ 12)
  have hhi' : sethi 0 rd = some hi := hhi
  have hlo' : bset 0 rd = some lo := hlo
  refine ⟨[hi, lo], ?_⟩
  change ((sethi 0 rd).bind fun hi =>
    (bset 0 rd).bind fun lo => some [hi, lo]) = _
  rw [hhi', hlo']
  rfl

theorem loadWords_spec {addr : Kptr} (h : LoadFits addr) :
    ∃ ws, loadWords rd addr = some (ws.map newSlot) ∧ Line sem ws fun σ => σ.write rd addr := by
  obtain ⟨old, hold⟩ := genImmAddrGeneric64_zero rd
  obtain ⟨ws, hwords, hline⟩ := setImmAddrWords_spec sem h hold
  exact ⟨ws, by simp only [loadWords, hwords, run_do], hline⟩

theorem fits_of_loadWords {addr : Kptr} (h : loadWords rd addr = some slots) : LoadFits addr := by
  simp only [loadWords, do_eq_some] at h
  obtain ⟨words, hwords, -⟩ := h
  exact loadFits_of_setImmAddrWords hwords

/-- How many instructions the load takes. -/
def AddrSource.size : AddrSource → Nat
  | .known addr => immAddrLen addr
  | _ => 2

/-- **An address that fits is loaded**, wherever it comes from. -/
theorem AddrSource.emitTo_spec {a : Addrs} {src : AddrSource} (h : src.Fits a) :
    ∃ es ws, src.emitTo rd = some es ∧ codeSize es = src.size ∧
      (∀ pc, assemble a pc es = some (ws.map newSlot)) ∧
      Line sem ws fun σ => σ.write rd (src.value a) := by
  cases src with
  | label l | symbol s =>
    obtain ⟨ws, hws, hline⟩ := loadWords_spec sem rd h
    refine ⟨[_], ws, rfl, rfl, fun pc => ?_, hline⟩
    rw [assemble_cons (by exact hws), assemble, map_some, append_nil]
  | known addr =>
    obtain ⟨ws, hws, hlen, -, hline⟩ := genImmAddr_spec sem rd h
    refine ⟨ws.map .insn, ws, by simp only [AddrSource.emitTo, hws]; rfl, ?_,
      assemble_insns ws, hline⟩
    rw [AddrSource.size, ← hlen, codeSize_insns]

/-- What was assembled did fit. -/
theorem AddrSource.fits_of_assemble {a : Addrs} {src : AddrSource} {es : List Emission} {pc : Kptr}
    (h : src.emitTo rd = some es) (hes : assemble a pc es = some slots) :
    src.Fits a := by
  cases src with
  | label l | symbol s =>
    obtain rfl := some.inj h
    simp only [assemble, Emission.words, do_eq_some] at hes
    obtain ⟨ws, hws, -⟩ := hes
    exact fits_of_loadWords rd hws
  | known addr =>
    simp only [AddrSource.emitTo, do_eq_some] at h
    obtain ⟨ws, hws, -⟩ := h
    exact genImmAddr_fits hws

end Loading

/-! ## Resolving -/

section Resolving

variable {env : ResolveEnv} {a : Addrs} {pc : Kptr} {off : InsnOffset} {old : List Word}
  {item : Item} {e : Emission}

/-- The entry that is noted for a request, for the words `old` that are emitted at `off`, and for
which an address of `a` is found. -/
def Emission.Notes (env : ResolveEnv) (a : Addrs) (off : InsnOffset) (old : List Word)
    (item : Item) : Emission → Prop
  | .branchToLabel i l | .branchToForwardLabel i l =>
    item = .branchToLabel off l ∧ old = [i] ∧ env.labelAddr l = some (a.label l)
  | .interprocBranchToName i s =>
    item = .interprocBranchToName off s ∧ old = [i] ∧ env.branchDest s = some (a.symbol s)
  | .interprocBranchToAddr i t => item = .interprocBranchToAddr off t ∧ old = [i]
  | .labelAddr l rd => item = .labelAddr off l ∧ genImmAddrGeneric64 0 rd true = some old ∧
    env.labelAddr l = some (a.label l)
  | .symAddr s rd => item = .symAddr off s ∧ genImmAddrGeneric64 0 rd true = some old ∧
    (env.knownSymAddrs s).or (env.symDest off s) = some (a.symbol s)
  | _ => False

/-- Branches, whatever they branch to. -/
theorem rewrite_of_branchWords (off : InsnOffset) {i : Word} {dest : Kptr}
    (hfix : ∀ kind : BranchKind, Encodable kind.dispBits (dest - pc).toInt →
      item.fix env = some (.single off (changeBranchOffset · (dest - pc).toInt)))
    (h : branchWords i pc dest = some slots) :
    (item.fix env).bind (fun f => f.rewrite [i]) = some (slots.map Slot.word) := by
  simp only [branchWords, do_eq_some] at h
  obtain ⟨w, hw, rfl⟩ := h
  have hchange := hw
  unfold changeBranchOffset at hchange
  split at hchange
  case h_1 b hb =>
    rw [hfix b.kind (changed_cases hb hchange).1, bind_some]
    exact Fixup.rewrite_single_eq_some.mpr ⟨i, w, rfl, rfl, hw⟩
  case h_2 => cases hchange

theorem rewrite_of_loadWords (off : InsnOffset) {rd : Reg} {addr : Kptr}
    (hfix : item.fix env = some (loadFixup off addr))
    (hold : genImmAddrGeneric64 0 rd true = some old) (h : loadWords rd addr = some slots) :
    (item.fix env).bind (fun f => f.rewrite old) = some (slots.map Slot.word) := by
  simp only [loadWords, setImmAddrWords, hold, do_eq_some] at h
  obtain ⟨words, ⟨new, hnew, _, hle, nop, hnop, rfl⟩, rfl⟩ := h
  rw [hfix, bind_some, List.map_map]
  refine (rewrite_loadFixup off hold ?_).trans (congrArg some (map_id' _).symm)
  simp only [setImmAddrWords, hold, hnew, hle, hnop, run_do]

/-- **An entry is resolved to the words of its request**, early or late. -/
theorem Emission.rewrite_of_words {chunks : Chunks} (hplaced : Placed env chunks)
    (hoff : AtBoundary chunks off) (hpc : env.absoluteAddr off = some pc)
    (hnotes : e.Notes env a off old item) (h : e.words a pc = some slots) :
    (item.fix env).bind (fun f => f.rewrite old) = some (slots.map Slot.word) := by
  cases e with
  | branchToLabel i l | branchToForwardLabel i l =>
    obtain ⟨rfl, rfl, hdest⟩ := hnotes
    exact rewrite_of_branchWords off (fun _ => Item.fix_branchToLabel hplaced hoff hdest hpc) h
  | interprocBranchToName i s =>
    obtain ⟨rfl, rfl, hdest⟩ := hnotes
    refine rewrite_of_branchWords off (fun kind henc => (Item.fix_of_late rfl).trans ?_) h
    simp only [Item.fixup, hdest, hpc, run_do, toLong_of_encodable kind.dispBits_le henc]
  | interprocBranchToAddr i t =>
    obtain ⟨rfl, rfl⟩ := hnotes
    refine rewrite_of_branchWords off (fun kind henc => (Item.fix_of_late rfl).trans ?_) h
    simp only [Item.fixup, hpc, run_do, toLong_of_encodable kind.dispBits_le henc]
  | labelAddr l rd =>
    obtain ⟨rfl, hold, haddr⟩ := hnotes
    refine rewrite_of_loadWords off ((Item.fix_of_late rfl).trans ?_) hold h
    simp only [Item.fixup, haddr, run_do]
  | symAddr s rd =>
    obtain ⟨rfl, hold, haddr⟩ := hnotes
    refine rewrite_of_loadWords off ?_ hold h
    cases hknown : env.knownSymAddrs s with
    | some addr =>
      obtain rfl : addr = a.symbol s := by simpa [hknown] using haddr
      rw [Item.fix_of_early (by simp [Item.isEarly, hknown])]
      simp only [Item.earlyFixup, hknown, run_do]
    | none =>
      rw [hknown, none_or] at haddr
      rw [Item.fix_of_late (by simp [Item.isEarly, hknown])]
      simp only [Item.fixup, hknown, haddr, run_do, isNone_none, check_pos]
  | _ => exact hnotes.elim

/-- **Where a request was noted, the resolved code has the words that `assemble` has for it.** -/
theorem Emission.words_of_resolve {em : TempBufferEmitter} {ops : List TempBufferEmitter.Op}
    {starts : List Kptr} {oracle : ResolverOracle} {chunks : Chunks}
    (hops : TempBufferEmitter.emitted ops = some em) (hs : em.Separate)
    (hsmall : ∀ chunk ∈ em.theChunks, 4 * chunk.length < 2 ^ 31)
    (hresolve : em.resolve starts oracle = some chunks) (hitem : item ∈ em.unresolved.items)
    (hold : (item.places em.labels).mapM (offset2Insn em.theChunks) = some old)
    (hoff : AtBoundary em.theChunks off)
    (hpc : (em.env starts oracle).absoluteAddr off = some pc)
    (hnotes : e.Notes (em.env starts oracle) a off old item) (h : e.words a pc = some slots) :
    (item.places em.labels).mapM (offset2Insn chunks) = some (slots.map Slot.word) := by
  have he := wellEmitted_of_emitted hops
  obtain ⟨order, hperm, hiff⟩ := resolve_eq_some_iff he hs
  obtain ⟨⟨hlength, haligned⟩, hrun⟩ := (hiff chunks).mp hresolve
  have hresult := Fixup.runAll_results (nodup_places_total he hs hperm) hrun _
    (mem_map_of_mem (hperm.mem_iff.mpr hitem))
  rw [Item.places_total, Item.result_total hold] at hresult
  exact hresult.trans (rewrite_of_words ⟨hlength, haligned, hsmall, he.labels⟩ hoff hpc hnotes h)

end Resolving

end Kerninst.CodeObject
