import Kerninst.Lib.Fixups
import Kerninst.Reloc.RelocatableCode

/-!
# Entries as fixups

Each routine that resolves an entry looks at one or two words, and replaces them. So an entry is
a `Fixup` of the chunks (`Item.fixup`, `Item.earlyFixup`), if the addresses that it needs can be
found, and what the library says about lists of fixups applies. The routines of
`obtainFullyResolvedCode` perform these fixups (`resolveItem_eq`), and so do those of `complete`.
-/

namespace Kerninst

open RelocatableCode List Option Item SparcInstr TempBufferEmitter

/-! ## The words of the chunks -/

theorem offset2Insn_eq_some_iff {chunks : Chunks} {off : InsnOffset} {w : Word} :
    offset2Insn chunks off = some w ↔ off.byteOffset % 4 = 0 ∧
      ∃ chunk, chunks[off.chunkNdx]? = some chunk ∧ chunk[off.byteOffset / 4]? = some w := by
  simp only [offset2Insn, do_eq_some, check_eq_some]
  constructor
  · rintro ⟨chunk, hchunk, -, h4, hw⟩
    exact ⟨h4, chunk, hchunk, hw⟩
  · rintro ⟨h4, chunk, hchunk, hw⟩
    exact ⟨chunk, hchunk, (), h4, hw⟩

theorem offset2Insn_setInsn_self {chunks : Chunks} {off : InsnOffset} (w : Word)
    (h : (offset2Insn chunks off).isSome) : offset2Insn (setInsn chunks off w) off = some w := by
  obtain ⟨old, hold⟩ := isSome_iff_exists.mp h
  obtain ⟨h4, chunk, hchunk, hw⟩ := offset2Insn_eq_some_iff.mp hold
  rw [offset2Insn_eq_some_iff, setInsn, if_pos h4]
  refine ⟨h4, chunk.set (off.byteOffset / 4) w, ?_, ?_⟩
  · rw [List.getElem?_modify_eq, hchunk]
    rfl
  · rw [List.getElem?_set_self (List.getElem?_eq_some_iff.mp hw).1]

theorem offset2Insn_setInsn_of_ne (chunks : Chunks) {off off' : InsnOffset} (w : Word)
    (h : off' ≠ off) : offset2Insn (setInsn chunks off w) off' = offset2Insn chunks off' := by
  unfold setInsn
  split
  case isFalse => rfl
  case isTrue h4 =>
    by_cases hndx : off.chunkNdx = off'.chunkNdx
    · by_cases h4' : off'.byteOffset % 4 = 0
      · -- two words of one chunk
        have hne : off.byteOffset / 4 ≠ off'.byteOffset / 4 := by
          intro heq
          have hbyte : off'.byteOffset = off.byteOffset := by omega
          obtain ⟨ndx, byte⟩ := off
          obtain ⟨ndx', byte'⟩ := off'
          exact h (by rw [show ndx = ndx' from hndx, show byte' = byte from hbyte])
        rw [offset2Insn, hndx, getElem?_modify_eq, offset2Insn]
        cases chunks[off'.chunkNdx]? with
        | none => rfl
        | some chunk => simp [getElem?_set_ne hne]
      · simp only [offset2Insn, check_neg h4']
        cases (chunks.modify _ _)[off'.chunkNdx]? <;> cases chunks[off'.chunkNdx]? <;> rfl
    · simp [offset2Insn, getElem?_modify, if_neg hndx]

/-- The chunks as a store. -/
def chunkCells : Cells Chunks InsnOffset Word where
  read := offset2Insn
  write := setInsn
  read_write_self := offset2Insn_setInsn_self
  read_write_of_ne := fun chunks _ _ w => offset2Insn_setInsn_of_ne chunks w

/-- Writing changes no chunk's size. -/
theorem map_length_setInsn (chunks : Chunks) (off : InsnOffset) (w : Word) :
    (setInsn chunks off w).map length = chunks.map length := by
  unfold setInsn
  split
  case isTrue =>
    apply ext_getElem?
    intro i
    rw [getElem?_map, getElem?_map, getElem?_modify]
    cases chunks[i]? with
    | none => rfl
    | some chunk => by_cases h : off.chunkNdx = i <;> simp [h]
  case isFalse => rfl

theorem map_length_writeAll : ∀ {offs : List InsnOffset} {ws : List Word} {chunks : Chunks},
    (chunkCells.writeAll chunks offs ws).map length = chunks.map length := by
  intro offs
  induction offs with
  | nil => exact fun {_} {_} => rfl
  | cons off offs ih =>
    rintro (_ | ⟨w, ws⟩) chunks
    · rfl
    · rw [Cells.writeAll, ih]
      exact map_length_setInsn chunks off w

theorem map_length_runAll {fs : List (Fixup InsnOffset Word)} {chunks chunks' : Chunks}
    (h : Fixup.runAll chunkCells fs chunks = some chunks') :
    chunks'.map length = chunks.map length := by
  refine foldlM_keeps (I := fun c => c.map length = chunks.map length) fs rfl ?_ h
  rintro f - c c' hc hrun
  obtain ⟨ws, -, rfl⟩ := map_eq_some_iff.mp hrun
  rw [map_length_writeAll, hc]

/-- Chunks of the same sizes with the same words are the same. -/
theorem chunks_ext {chunks chunks' : Chunks} (hlen : chunks'.map length = chunks.map length)
    (h : ∀ off, offset2Insn chunks' off = offset2Insn chunks off) : chunks' = chunks := by
  have hlen' : ∀ i, (chunks'[i]?).map length = (chunks[i]?).map length := fun i => by
    rw [← getElem?_map, hlen, getElem?_map]
  apply ext_getElem?
  intro i
  have hi := hlen' i
  cases hc : chunks[i]? with
  | none => simpa [hc] using hi
  | some chunk =>
    cases hc' : chunks'[i]? with
    | none => simp [hc, hc'] at hi
    | some chunk' =>
      congr 1
      apply ext_getElem?
      intro j
      have hread := h ⟨i, 4 * j⟩
      simpa [offset2Insn, hc, hc', check_pos] using hread

/-- `n` words from `off` on. -/
def insnOffsets (off : InsnOffset) : Nat → List InsnOffset
  | 0 => []
  | n + 1 => off :: insnOffsets (off.add 4) n

theorem mem_insnOffsets {n : Nat} {off p : InsnOffset} : p ∈ insnOffsets off n ↔
    ∃ k < n, p = off.add (4 * k) := by
  induction n generalizing off with
  | zero => simp [insnOffsets]
  | succ n ih =>
    rw [insnOffsets, mem_cons, ih]
    constructor
    · rintro (rfl | ⟨k, hk, rfl⟩)
      · exact ⟨0, by omega, rfl⟩
      · refine ⟨k + 1, by omega, ?_⟩
        simp only [InsnOffset.add, InsnOffset.mk.injEq, true_and]
        omega
    · rintro ⟨_ | k, hk, rfl⟩
      · exact Or.inl rfl
      · refine Or.inr ⟨k, by omega, ?_⟩
        simp only [InsnOffset.add, InsnOffset.mk.injEq, true_and]
        omega

theorem notMem_insnOffsets_add (off : InsnOffset) (n : Nat) : off ∉ insnOffsets (off.add 4) n := by
  intro h
  obtain ⟨k, -, heq⟩ := mem_insnOffsets.mp h
  have hbyte : off.byteOffset = off.byteOffset + 4 + 4 * k := congrArg InsnOffset.byteOffset heq
  omega

theorem nodup_insnOffsets (off : InsnOffset) (n : Nat) : (insnOffsets off n).Nodup := by
  induction n generalizing off with
  | zero => exact nodup_nil
  | succ n ih => exact nodup_cons.mpr ⟨notMem_insnOffsets_add off n, ih (off.add 4)⟩

/-- Verifying and writing word by word is the same as first verifying all and then writing. -/
theorem replaceVerified_eq : ∀ {oldv newv : List Word} (chunks : Chunks) (off : InsnOffset),
    newv.length = oldv.length → replaceVerified chunks off oldv newv =
      ((insnOffsets off oldv.length).mapM (offset2Insn chunks)).bind fun vs =>
        if vs = oldv then some (chunkCells.writeAll chunks (insnOffsets off oldv.length) newv)
        else none := by
  intro oldv
  induction oldv with
  | nil =>
    intro newv chunks off _
    cases newv <;> rfl
  | cons old oldv ih =>
    rintro (_ | ⟨new, newv⟩) chunks off hlen
    · exact nomatch hlen
    have hothers : (insnOffsets (off.add 4) oldv.length).mapM
      (offset2Insn (setInsn chunks off new)) =
        (insnOffsets (off.add 4) oldv.length).mapM (offset2Insn chunks) :=
      mapM_congr fun p hp => offset2Insn_setInsn_of_ne chunks new
        fun h => notMem_insnOffsets_add off _ (h ▸ hp)
    rw [replaceVerified, length_cons, insnOffsets, mapM_cons, ih _ _ (Nat.succ.inj hlen), hothers]
    cases offset2Insn chunks off with
    | none => rfl
    | some current =>
      by_cases hc : current = old
      · subst hc
        cases hrest : (insnOffsets (off.add 4) oldv.length).mapM (offset2Insn chunks) with
        | none => simp
        | some vs => by_cases h : vs = oldv <;> simp [check_pos, h, Cells.writeAll, chunkCells]
      · cases (insnOffsets (off.add 4) oldv.length).mapM (offset2Insn chunks) <;>
          simp [check_neg, hc]

theorem modifyInsn_eq (chunks : Chunks) (off : InsnOffset) (f : Word → Option Word) :
    modifyInsn chunks off f = (Fixup.single off f).run chunkCells chunks := by
  rw [Fixup.run_single]
  cases h : offset2Insn chunks off with
  | none => simp [modifyInsn, chunkCells, h]
  | some w => cases h' : f w <;> simp [modifyInsn, chunkCells, h, h']

/-! ## The fixups -/

open ResolveEnv

theorem length_genCallAndLinkGeneric {toAddr : Kptr} {ws : List Word}
    (h : genCallAndLinkGenericUnknownFromAddr toAddr = some ws) : ws.length = 1 := by
  simp only [genCallAndLinkGenericUnknownFromAddr, do_eq_some] at h
  obtain ⟨_, -, _, -, rfl⟩ := h
  rfl

theorem length_callWords {startAddr callee atEmit : Kptr} {ws : List Word × List Word}
    (h : callWords startAddr callee atEmit = some ws) : ws.1.length = 1 ∧ ws.2.length = 1 := by
  simp only [callWords, genCallAndLinkGenericUnknownFromAddr, genCallAndLink, do_eq_some,
    check_eq_some] at h
  obtain ⟨_, ⟨_, -, _, -, rfl⟩, _, ⟨_, -, _, -, _, -, rfl⟩, _, -, _, -, rfl⟩ := h
  exact ⟨rfl, rfl⟩

theorem length_genImmAddrGeneric64 {addr : Kptr} {rd : Reg} {ws : List Word}
    (h : genImmAddrGeneric64 addr rd true = some ws) : ws.length = 2 := by
  simp only [genImmAddrGeneric64, genImmAddrGeneric32, if_true, do_eq_some] at h
  obtain ⟨_, -, _, -, _, -, rfl⟩ := h
  rfl

theorem length_setImmAddrWords {rd : Reg} {addr : Kptr} {ws : List Word × List Word}
    (h : setImmAddrWords rd addr = some ws) : ws.1.length = 2 ∧ ws.2.length = 2 := by
  simp only [setImmAddrWords, do_eq_some, check_eq_some] at h
  obtain ⟨oldv, hold, newv, -, _, hle, _, -, rfl⟩ := h
  have hlen := length_genImmAddrGeneric64 hold
  refine ⟨hlen, ?_⟩
  rw [length_append, length_replicate]
  omega

/-- Load `addr` instead of 0. -/
def loadFixup (off : InsnOffset) (addr : Kptr) : Fixup InsnOffset Word :=
  .replacing (insnOffsets off 2) fun vs =>
    vs.head?.bind fun first => setImmAddrWords (regField first 25) addr

/-- Call `callee` instead of what was called when the code was emitted. -/
def callFixup (off : InsnOffset) (startAddr callee atEmit : Kptr) (ok : Word → Bool) :
    Fixup InsnOffset Word :=
  .replacing (insnOffsets off 1) fun vs =>
    vs.head?.bind fun current => (check (ok current)).bind fun _ =>
      callWords startAddr callee atEmit

/-- Replacing consecutive words if they are the expected ones. -/
theorem run_replacing {n : Nat} {words : List Word → Option (List Word × List Word)}
    (hlen : ∀ vs ws, words vs = some ws → ws.1.length = n ∧ ws.2.length = n) (chunks : Chunks)
    (off : InsnOffset) : (Fixup.replacing (insnOffsets off n) words).run chunkCells chunks =
      ((insnOffsets off n).mapM (offset2Insn chunks)).bind fun vs => (words vs).bind fun ws =>
        replaceVerified chunks off ws.1 ws.2 := by
  change ((mapM (offset2Insn chunks) (insnOffsets off n)).bind _).map _ = _
  cases hvs : (insnOffsets off n).mapM (offset2Insn chunks) with
  | none => rfl
  | some vs =>
    simp only [bind_some, Fixup.replacing]
    cases hws : words vs with
    | none => rfl
    | some ws =>
      obtain ⟨hold, hnew⟩ := hlen vs ws hws
      simp only [bind_some, replaceVerified_eq chunks off (hnew.trans hold.symm), hold, hvs,
        hnew, and_true]
      split <;> rfl

theorem resolve1SetImmAddr_eq (chunks : Chunks) (off : InsnOffset) (addr : Kptr) :
    resolve1SetImmAddr chunks off addr = (loadFixup off addr).run chunkCells chunks := by
  rw [loadFixup, run_replacing fun vs ws h => ?hlen]
  case hlen =>
    obtain ⟨first, -, h⟩ := exists_of_bind h
    exact length_setImmAddrWords h
  rw [resolve1SetImmAddr, insnOffsets, mapM_cons]
  cases hfirst : offset2Insn chunks off with
  | none => rfl
  | some first =>
    cases hrest : (insnOffsets (off.add 4) 1).mapM (offset2Insn chunks) with
    | some vs => rfl
    | none =>
      -- the second word is read when it is verified
      simp only [run_do, bind_none, bind_eq_none_iff]
      intro ws hws
      obtain ⟨hold, hnew⟩ := length_setImmAddrWords hws
      rw [replaceVerified_eq chunks off (hnew.trans hold.symm), hold, insnOffsets, mapM_cons,
        hfirst, hrest]
      rfl

theorem resolve1Call_eq (chunks : Chunks) (off : InsnOffset) (startAddr callee atEmit : Kptr)
    (ok : Word → Bool) :
    ((offset2Insn chunks off).bind fun current => (check (ok current)).bind fun _ =>
      resolve1Call chunks off startAddr callee atEmit) =
        (callFixup off startAddr callee atEmit ok).run chunkCells chunks := by
  rw [callFixup, run_replacing fun vs ws h => ?hlen]
  case hlen =>
    obtain ⟨current, -, h⟩ := exists_of_bind h
    obtain ⟨-, -, h⟩ := exists_of_bind h
    exact length_callWords h
  rw [insnOffsets, insnOffsets, mapM_cons, mapM_nil]
  cases offset2Insn chunks off with
  | none => rfl
  | some current =>
    simp [bind_assoc, resolve1Call]

namespace Item

/-- The words that were emitted for the entry. -/
def emittedPlaces : Item → List InsnOffset
  | .branchToLabel off _ | .interprocBranchToName off _ | .interprocBranchToAddr off _
  | .callByName off _ | .callByAddr off _ | .labelAddrAsData off _ | .labelDifference off _ =>
    insnOffsets off 1
  | .symAddr off _ | .labelAddr off _ => insnOffsets off 2
  | .backpatch _ => []

/-- The words of a pair that is to be patched. -/
def patchedPlaces (labels : String → Option InsnOffset) : Item → List InsnOffset
  | .backpatch info =>
    match patchOffsets labels info.insnLocs with
    | some offs => [offs.1, offs.2]
    | none => []
  | _ => []

/-- The words that belong to the entry. -/
def places (labels : String → Option InsnOffset) (item : Item) : List InsnOffset :=
  item.emittedPlaces ++ item.patchedPlaces labels

/-- What `obtainFullyResolvedCode` does about the entry. -/
def fixup (env : ResolveEnv) : Item → Option (Fixup InsnOffset Word)
  | .branchToLabel off l => do
    let labelOff ← env.labels l
    let delta ← env.distanceCalc labelOff off
    pure (.single off (changeBranchOffset · (toLong delta)))
  | .interprocBranchToName off s => do
    let dest ← env.branchDest s
    let addr ← env.absoluteAddr off
    pure (.single off (changeBranchOffset · (toLong (dest - addr).toInt)))
  | .interprocBranchToAddr off dest => do
    let addr ← env.absoluteAddr off
    pure (.single off (changeBranchOffset · (toLong (dest - addr).toInt)))
  | .callByName off s => do
    let addr ← env.absoluteAddr off
    let callee ← env.callDest s
    pure (callFixup off addr callee 0 fun _ => true)
  | .callByAddr off callee => do
    let addr ← env.absoluteAddr off
    pure (callFixup off addr callee callee isCallInstr)
  | .symAddr off s => do
    check ((env.knownSymAddrs s).isNone = true)
    let addr ← env.symDest off s
    pure (loadFixup off addr)
  | .labelAddrAsData off l => do
    let addr ← env.labelAddr l
    check (addr.toNat < 2 ^ 32)
    pure (.single off fun _ => some (addr.setWidth 32))
  | .labelDifference off info => do
    let label1Offset ← env.labels info.label1
    let label2Offset ← env.labels info.label2
    let delta ← env.distanceCalc label1Offset label2Offset
    check (0 < delta)
    check (info.divideByThis ≠ 0)
    pure (.single off fun _ => some (BitVec.ofInt 32 (delta.tdiv info.divideByThis.toNat)))
  | .labelAddr off l => do
    let addr ← env.labelAddr l
    pure (loadFixup off addr)
  | .backpatch info => do
    let addr ← env.labelAddr info.labelName
    let offs ← patchOffsets env.labels info.insnLocs
    pure (.pair offs.1 offs.2 (patchSetHi (addr + BitVec.ofNat 64 info.byteOffset))
      (patchBSetOrAdd (addr + BitVec.ofNat 64 info.byteOffset)))

/-- What `complete` does about an entry that it can resolve. -/
def earlyFixup (labels : String → Option InsnOffset) (knownSymAddrs : String → Option Kptr) :
    Item → Option (Fixup InsnOffset Word)
  | .branchToLabel off l => do
    let labelOff ← labels l
    check (TempBufferEmitter.insnbytesDelta labelOff off % 4 = 0)
    pure (.single off (changeBranchOffset · (TempBufferEmitter.insnbytesDelta labelOff off)))
  | .labelDifference off info => do
    let label1Offset ← labels info.label1
    let label2Offset ← labels info.label2
    check (info.divideByThis ≠ 0)
    pure (.single off fun raw => (check (raw = 0)).map fun _ =>
      (BitVec.ofNat 32 label1Offset.byteOffset - BitVec.ofNat 32 label2Offset.byteOffset) /
        info.divideByThis)
  | .symAddr off s => do
    let addr ← knownSymAddrs s
    pure (loadFixup off addr)
  | _ => none

end Item

/-- **The routines perform the fixups.** -/
theorem resolveItem_eq {env : ResolveEnv} {item : Item} (h : (item.places env.labels).Nodup)
    (chunks : Chunks) : resolveItem env chunks item =
      (item.fixup env).bind fun f => f.run chunkCells chunks := by
  cases item with
  | branchToLabel off l =>
    simp [resolveItem, resolveBranchToLabel, fixup, modifyInsn_eq, bind_assoc]
  | interprocBranchToName off s =>
    simp [resolveItem, resolveInterprocBranchToName, resolveBranchToAddr, fixup, modifyInsn_eq,
      bind_assoc]
  | interprocBranchToAddr off a =>
    simp [resolveItem, resolveBranchToAddr, fixup, modifyInsn_eq, bind_assoc]
  | callByName off s =>
    simp only [resolveItem, resolveCallByName, fixup, run_do,
      bind_assoc, ← resolve1Call_eq, check_pos]
    cases env.absoluteAddr off with
    | none => rfl
    | some addr =>
      cases env.callDest s with
      | none => rfl
      | some callee =>
        -- the first word is read again when it is verified
        cases hread : offset2Insn chunks off with
        | some w => rfl
        | none =>
          simp only [run_do, bind_none, resolve1Call, bind_eq_none_iff]
          intro ws hws
          obtain ⟨hold, hnew⟩ := length_callWords hws
          rw [replaceVerified_eq chunks off (hnew.trans hold.symm), hold]
          simp [insnOffsets, hread]
  | callByAddr off a =>
    simp [resolveItem, resolveCallByAddr, fixup, bind_assoc, ← resolve1Call_eq]
  | symAddr off s =>
    simp [resolveItem, resolveSymAddr, fixup, bind_assoc, resolve1SetImmAddr_eq]
  | labelAddrAsData off l =>
    simp [resolveItem, resolveLabelAddrAsData, fixup, modifyInsn_eq, bind_assoc]
  | labelDifference off info =>
    simp [resolveItem, resolveLabelDifference, fixup, modifyInsn_eq, bind_assoc]
  | labelAddr off l =>
    simp [resolveItem, resolveLabelAddr, fixup, bind_assoc, resolve1SetImmAddr_eq]
  | backpatch info =>
    simp only [resolveItem, resolveBackpatch, fixup, run_do, bind_assoc]
    cases env.labelAddr info.labelName with
    | none => rfl
    | some addr =>
      cases hoffs : patchOffsets env.labels info.insnLocs with
      | none => rfl
      | some offs =>
        have hne : offs.2 ≠ offs.1 := by
          simp only [places, emittedPlaces, patchedPlaces, hoffs] at h
          intro heq
          simp [heq] at h
        simp [modifyInsn_eq, Fixup.run_single, Fixup.run_pair hne]

section Early

variable (e : TempBufferEmitter) (chunks : Chunks)

theorem fixUpBranch_eq (x : InsnOffset × String) : e.fixUpBranch chunks x =
    ((branchToLabel x.1 x.2).earlyFixup e.labels e.knownSymAddrs).bind
      fun f => f.run chunkCells chunks := by
  simp [fixUpBranch, earlyFixup, modifyInsn_eq, bind_assoc]

theorem fixUpDifference_eq (x : InsnOffset × LabelDifference) : e.fixUpDifference chunks x =
    ((labelDifference x.1 x.2).earlyFixup e.labels e.knownSymAddrs).bind
      fun f => f.run chunkCells chunks := by
  simp [fixUpDifference, earlyFixup, modifyInsn_eq, bind_assoc]

theorem fixUpSymAddr_eq (x : InsnOffset × String) : e.fixUpSymAddr chunks x =
    ((symAddr x.1 x.2).earlyFixup e.labels e.knownSymAddrs).bind
      fun f => f.run chunkCells chunks := by
  simp [fixUpSymAddr, earlyFixup, resolve1SetImmAddr_eq, bind_assoc]

end Early

/-- A fixup is at the words of its entry. -/
theorem Item.places_fixup {env : ResolveEnv} {item : Item} {f : Fixup InsnOffset Word}
    (h : item.fixup env = some f) : f.places = item.places env.labels := by
  cases item <;>
    simp only [fixup, do_eq_some] at h
  case branchToLabel off l =>
    obtain ⟨_, -, _, -, rfl⟩ := h
    rfl
  case interprocBranchToName off s =>
    obtain ⟨_, -, _, -, rfl⟩ := h
    rfl
  case interprocBranchToAddr off a =>
    obtain ⟨_, -, rfl⟩ := h
    rfl
  case callByName off s =>
    obtain ⟨_, -, _, -, rfl⟩ := h
    rfl
  case callByAddr off a =>
    obtain ⟨_, -, rfl⟩ := h
    rfl
  case symAddr off s =>
    obtain ⟨_, -, _, -, rfl⟩ := h
    rfl
  case labelAddrAsData off l =>
    obtain ⟨_, -, _, -, rfl⟩ := h
    rfl
  case labelDifference off info =>
    obtain ⟨_, -, _, -, _, -, _, -, _, -, rfl⟩ := h
    rfl
  case labelAddr off l =>
    obtain ⟨_, -, rfl⟩ := h
    rfl
  case backpatch info =>
    obtain ⟨_, -, offs, hoffs, rfl⟩ := h
    simp [Fixup.pair, places, emittedPlaces, patchedPlaces, hoffs]

theorem Item.places_earlyFixup {labels : String → Option InsnOffset}
    {knownSymAddrs : String → Option Kptr} {item : Item} {f : Fixup InsnOffset Word}
    (h : item.earlyFixup labels knownSymAddrs = some f) : f.places = item.places labels := by
  cases item <;>
    simp only [earlyFixup, reduceCtorEq, do_eq_some] at h
  case branchToLabel off l =>
    obtain ⟨_, -, _, -, rfl⟩ := h
    rfl
  case symAddr off s =>
    obtain ⟨_, -, rfl⟩ := h
    rfl
  case labelDifference off info =>
    obtain ⟨_, -, _, -, _, -, rfl⟩ := h
    rfl

end Kerninst
