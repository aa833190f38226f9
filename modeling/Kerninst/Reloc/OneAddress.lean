import Kerninst.Reloc.ResolvedTwice

/-!
# One name, one address

A call by name, a branch by name and a load of a symbol's address may mention the same name. Each
of them asks its own sources, in its own order: a call asks the known symbols, the labels and the
oracle, a branch the oracle and then the known symbols, and a load the known symbols and then the
oracle for another kind of address. What their words go to, or load, in resolved code is what the
source gave that they asked first (`holdsFor_iff_address`). So all that mention a name in an object
come to one address only if these sources agree (`oneAddress_iff`).
-/

namespace Kerninst

open List Option ResolveEnv SparcInstr Item
open Fixup (runAll_results runAll_isSome_iff rewrite_single_eq_some rewrite_replacing_eq_some)

universe u

variable {ρ : Type u} {sem : Sem ρ} {env : ResolveEnv} {s : String} {a b : Kptr} {item : Item}
  {old new : List Word} {off : InsnOffset} {f : Fixup InsnOffset Word}

/-- The name that an entry mentions. -/
def Item.mentions : Item → Option String
  | .interprocBranchToName _ s | .callByName _ s | .symAddr _ s => some s
  | _ => none

/-- The address that an entry takes from its sources. A branch is given the distance as an `int`. -/
def Item.address (env : ResolveEnv) : Item → Option Kptr
  | .interprocBranchToName off s => do
    let dest ← env.branchDest s
    let pc ← env.absoluteAddr off
    pure (pc + BitVec.ofInt 64 (toLong (dest - pc).toInt))
  | .callByName _ s => env.callDest s
  | .symAddr off s => (env.knownSymAddrs s).or (env.symDest off s)
  | _ => none

/-- Some load nothing: those into `%g0`. -/
def Item.Visible (old : List Word) : Item → Prop
  | .symAddr .. => ∀ w, old.head? = some w → regField w 25 ≠ Reg.g0
  | _ => True

namespace TempBufferEmitter

variable (e : TempBufferEmitter)

/-- **One name, one address**: in the resolved code, whatever mentions the name goes to one address,
or loads it. -/
def OneAddress (sem : Sem ρ) (env : ResolveEnv) (chunks : Chunks) (s : String) : Prop :=
  ∃ a, ∀ item ∈ e.unresolved.items, item.mentions = some s → ∃ old new,
    (item.places e.labels).mapM (offset2Insn e.theChunks) = some old ∧
    (item.places e.labels).mapM (offset2Insn chunks) = some new ∧
    (item.Visible old → item.HoldsFor sem env old new a)

/-- What mentions the name in this code has the same address from the sources that it asks. -/
def NoConflict (env : ResolveEnv) (s : String) : Prop :=
  ∃ a, ∀ item ∈ e.unresolved.items, item.mentions = some s → ∀ old,
    (item.places e.labels).mapM (offset2Insn e.theChunks) = some old → item.Visible old →
      item.address env = some a

end TempBufferEmitter

/-! ## What the words go to -/

/-- A branch that was changed goes where it was changed to. -/
theorem branchesTo_iff {pc : Kptr} {w w' : Word} {d : Int}
    (h : changeBranchOffset w d = some w') :
    BranchesTo pc [w] [w'] a ↔ pc + BitVec.ofInt 64 d = a := by
  obtain ⟨br, hw, hchange⟩ : ∃ br, pcRelative w = some (.branch br) ∧
      changeBranchOffsetAndAnnulBit w d br.annul = some w' := by
    unfold changeBranchOffset at h
    split at h
    case h_1 br hw => exact ⟨br, hw, h⟩
    case h_2 => cases h
  obtain ⟨henc, hfloat⟩ := changed_cases hw hchange
  obtain ⟨w₁, hw₁, hup⟩ := changed_of_encodable hw henc hfloat
  obtain rfl := mem_unique hchange hw₁
  constructor
  · rintro ⟨w₂, br₂, w₂', d₂, h₂, h₂', -, hup₂, htarget⟩
    obtain rfl := head_eq_of_cons_eq h₂'
    have hsame := mem_unique hup.reads hup₂.reads
    simp only [PcRelative.branch.injEq, Branch.mk.injEq] at hsame
    obtain ⟨-, -, -, rfl⟩ := hsame
    exact htarget
  · exact fun htarget => ⟨w, br, w', d, rfl, rfl, hw, hup, htarget⟩

theorem callsTo_iff {pc callee : Kptr} {w : Word} (h : callandlink callee pc = some w) :
    CallsTo pc [w] a ↔ callee = a := by
  obtain ⟨-, hop, himm⟩ := callandlink_fields h
  have hd : decode w = .call (callee - pc).toInt := by simp [decode, hop, himm]
  constructor
  · rintro ⟨w', disp, hw', hd', htarget⟩
    obtain rfl := head_eq_of_cons_eq hw'
    obtain rfl := Insn.call.inj (hd.symm.trans hd')
    rwa [add_ofInt_sub] at htarget
  · rintro rfl
    exact ⟨w, _, rfl, hd, add_ofInt_sub _ _⟩

/-- What a line does is determined. -/
theorem Line.unique {ws : List Word} {g g' : Arch ρ → Arch ρ} (h : Line sem ws g)
    (h' : Line sem ws g') (hlen : 4 * ws.length < 2 ^ 64) (σ : Arch ρ) : g σ = g' σ := by
  have hslots : 4 * (ws.map newSlot).length < 2 ^ 64 := by rwa [length_map]
  have hhold : Holds (blockCode 0 (ws.map newSlot)) 0 (ws.map newSlot) := holds_blockCode 0 hslots
  have hend : blockCode 0 (ws.map newSlot) (0 + BitVec.ofNat 64 (4 * ws.length)) = none := by
    refine blockCode_eq_none ?_
    simpa using (Nat.mod_eq_of_lt hlen).ge
  exact congrArg Cpu.arch ((h.run _ 0 σ 0 hhold).end_unique (h'.run _ 0 σ 0 hhold) hend hend)

/-- A load that was resolved loads its address, and no other one. -/
theorem loads_iff (σ : Arch ρ) (h : (loadFixup off b).rewrite old = some new)
    (hvisible : ∀ w, old.head? = some w → regField w 25 ≠ Reg.g0) :
    Loads sem old new a ↔ b = a := by
  obtain ⟨hwords, -⟩ := rewrite_replacing_eq_some.mp h
  obtain ⟨first, hfirst, hwords⟩ := exists_of_bind hwords
  have hfits := loadFits_of_setImmAddrWords hwords
  simp only [setImmAddrWords, Prod.mk.injEq, do_eq_some] at hwords
  obtain ⟨_, hold, ws, -, -, -, nop, -, rfl, -⟩ := hwords
  have hlen := length_genImmAddrGeneric64 hold
  obtain ⟨new', hnew', hloads⟩ := load_rewrite sem off hfits ⟨_, hold⟩
  obtain rfl := mem_unique h hnew'
  constructor
  · rintro ⟨rd, hrd, hnewlen, hline⟩
    obtain ⟨rd', hrd', -, hline'⟩ := hloads
    obtain ⟨w₁, w₂, heq, rfl⟩ := regField_of_genImmAddrGeneric64 hrd
    obtain ⟨_, _, heq', rfl⟩ := regField_of_genImmAddrGeneric64 hrd'
    obtain ⟨rfl, -⟩ := heq.symm.trans heq'
    have hne := hvisible w₁ (by rw [heq]; rfl)
    have hσ := hline'.unique hline (by omega) σ
    rw [← Arch.read_write_self σ hne b, hσ, Arch.read_write_self σ hne a]
  · rintro rfl
    exact hloads

/-- **What the words go to** is what the sources gave. -/
theorem holdsFor_iff_address (σ : Arch ρ) (hs : item.mentions = some s)
    (hfix : item.fix env = some f) (hnew : f.rewrite old = some new) (hvisible : item.Visible old) :
    item.HoldsFor sem env old new a ↔ item.address env = some a := by
  cases item with
  | interprocBranchToName off s =>
    rw [fix_of_late rfl] at hfix
    simp only [fixup, do_eq_some] at hfix
    obtain ⟨dest, hdest, pc, hpc, rfl⟩ := hfix
    obtain ⟨w, w', rfl, rfl, hw⟩ := rewrite_single_eq_some.mp hnew
    simp only [HoldsFor, Item.address, hdest, hpc, run_do, some.injEq, exists_eq_left',
      branchesTo_iff hw]
  | callByName off s =>
    rw [fix_of_late rfl] at hfix
    simp only [fixup, do_eq_some] at hfix
    obtain ⟨pc, hpc, callee, hcallee, rfl⟩ := hfix
    obtain ⟨w, w', rfl, rfl, -, hwords⟩ := rewrite_callFixup.mp hnew
    obtain ⟨_, _, heq, -, hcall⟩ := callWords_eq_some hwords
    obtain rfl := head_eq_of_cons_eq (Prod.mk.inj heq).2
    simp only [HoldsFor, Item.address, hcallee, hpc, some.injEq, exists_eq_left', callsTo_iff hcall]
  | symAddr off s =>
    obtain ⟨b, hb, rfl⟩ : ∃ b, (symAddr off s).address env = some b ∧ f = loadFixup off b := by
      cases hknown : env.knownSymAddrs s with
      | some b =>
        rw [fix_of_early (by simp [isEarly, hknown]), earlyFixup, hknown] at hfix
        exact ⟨b, by simp [Item.address, hknown], (some.inj hfix).symm⟩
      | none =>
        rw [fix_of_late (by simp [isEarly, hknown])] at hfix
        simp only [fixup, do_eq_some] at hfix
        obtain ⟨-, -, b, hb, rfl⟩ := hfix
        exact ⟨b, by simp [Item.address, hknown, hb], rfl⟩
    rw [hb, some.injEq]
    exact loads_iff σ hnew hvisible
  | _ => cases hs

/-! ## The whole object -/

section

variable {e : TempBufferEmitter} {chunkStartAddrs : List Kptr} {oracle : ResolverOracle}
  {chunks : Chunks}

/-- The words of an entry in resolved code are those that its fixup makes. -/
theorem exists_resolved (he : WellEmitted e) (hs : e.Separate)
    (hrun : e.resolve chunkStartAddrs oracle = some chunks) (hitem : item ∈ e.unresolved.items) :
    ∃ old new f, (item.places e.labels).mapM (offset2Insn e.theChunks) = some old ∧
      (item.places e.labels).mapM (offset2Insn chunks) = some new ∧
      item.fix (e.env chunkStartAddrs oracle) = some f ∧ f.rewrite old = some new := by
  obtain ⟨order, hperm, hiff⟩ := @resolve_eq_some_iff e chunkStartAddrs oracle he hs
  have hall := ((hiff chunks).mp hrun).2
  set env := e.env chunkStartAddrs oracle
  have hnodup : ((order.map (total env)).flatMap Fixup.places).Nodup := by
    rw [flatMap_map, flatMap_congr fun item _ => places_total]
    exact (hperm.flatMap_right _).nodup_iff.mpr (nodup_places he hs)
  have hmem : item.total env ∈ order.map (total env) :=
    mem_map_of_mem (hperm.mem_iff.mpr hitem)
  obtain ⟨new, hnew⟩ := isSome_iff_exists.mp
    ((runAll_isSome_iff hnodup).mp (isSome_of_eq_some hall) _ hmem)
  have hread := runAll_results hnodup hall _ hmem
  rw [places_total] at hread
  obtain ⟨old, hold, -⟩ := exists_of_bind hnew
  rw [places_total] at hold
  have hfix := (result_total hold).symm.trans hnew
  obtain ⟨f, hf, hrewrite⟩ := exists_of_bind hfix
  exact ⟨old, new, f, hold, hread.trans hnew, hf, hrewrite⟩

/-- **All that mentions a name comes to one address** exactly if the sources agree that are asked
for it in this code. -/
theorem oneAddress_iff (σ : Arch ρ) {ops : List TempBufferEmitter.Op}
    (hops : TempBufferEmitter.emitted ops = some e) (hs : e.Separate)
    (hrun : e.resolve chunkStartAddrs oracle = some chunks) (s : String) :
    e.OneAddress sem (e.env chunkStartAddrs oracle) chunks s ↔
      e.NoConflict (e.env chunkStartAddrs oracle) s := by
  have he := wellEmitted_of_emitted hops
  refine exists_congr fun a => forall₃_congr fun item hitem hname => ?_
  obtain ⟨old, new, f, hold, hnew, hf, hrewrite⟩ := exists_resolved he hs hrun hitem
  constructor
  · rintro ⟨old', new', hold', hnew', hholds⟩ old₁ hold₁ hvisible
    obtain rfl := mem_unique hold hold'
    obtain rfl := mem_unique hnew hnew'
    obtain rfl := mem_unique hold hold₁
    exact (holdsFor_iff_address σ hname hf hrewrite hvisible).mp (hholds hvisible)
  · intro haddr
    refine ⟨old, new, hold, hnew, fun hvisible => ?_⟩
    exact (holdsFor_iff_address σ hname hf hrewrite hvisible).mpr (haddr old hold hvisible)

end

/-! ### A call, a branch and a load -/

section Sample

open TempBufferEmitter

/-- `call f; ba f; set f, %o7`, with an address of `f` that is known. -/
def callAndBranchOps : List Op :=
  [.makeSymAddrKnown "f" 0x1100, .emitCallByName "f",
    .emitInterprocCondBranchToName 0x10800000 "f", .emitSymAddr "f" Reg.o7]

/-- What is emitted. -/
def callAndBranch : TempBufferEmitter :=
  { create with
    theChunks := [[0x40000000, 0x10800000, 0x1F000000, 0x9E13E000]]
    knownSymAddrs := Function.update (fun _ => none) "f" (some 0x1100)
    unresolved :=
      { create.unresolved with
        callsByName := [(⟨0, 0⟩, "f")]
        interprocBranchesToName := [(⟨0, 4⟩, "f")]
        symAddrs := [(⟨0, 8⟩, "f")] } }

/-- The load is resolved by `complete`. -/
def callAndBranchDone : TempBufferEmitter :=
  { callAndBranch with
    theChunks := [[0x40000000, 0x10800000, 0x1F000004, 0x9E13E100]]
    completed := true
    unresolved := { callAndBranch.unresolved with symAddrs := [] } }

/-- The object that is made of it. -/
def callAndBranchCode : RelocatableCode :=
  ⟨callAndBranchDone.theChunks, callAndBranch.labels, callAndBranch.knownSymAddrs,
    callAndBranchDone.unresolved, callAndBranchDone.theChunks⟩

/-- The oracle has an entry address for every name. -/
def entryAt (a : Kptr) : ResolverOracle := ⟨fun _ => some a, fun _ => none⟩

theorem separate_callAndBranch : callAndBranch.Separate :=
  ⟨forall_mem_cons.mpr ⟨trivial, forall_mem_cons.mpr ⟨trivial, forall_mem_singleton.mpr trivial⟩⟩,
    nodup_nil, nofun⟩

theorem resolve_callAndBranch (oracle : ResolverOracle) :
    callAndBranch.resolve [0x1000] oracle =
      (callAndBranchCode.obtainFullyResolvedCode [0x1000] oracle).map
        (·.fullyResolvedCodeCache) := by
  rw [resolve, show callAndBranch.complete = some callAndBranchDone from rfl, bind_eq_bind,
    bind_some, show RelocatableCode.ofEmitter callAndBranchDone = some callAndBranchCode from rfl,
    bind_eq_bind,
    bind_some]
  cases callAndBranchCode.obtainFullyResolvedCode [0x1000] oracle <;> rfl

/-- If the oracle has the known address, all three come to it. -/
theorem oneAddress_callAndBranch : ∃ chunks,
    callAndBranch.resolve [0x1000] (entryAt 0x1100) = some chunks ∧
    callAndBranch.OneAddress UnwoundCallRestore.addSem
      (callAndBranch.env [0x1000] (entryAt 0x1100)) chunks "f" := by
  have hops : emitted callAndBranchOps = some callAndBranch := rfl
  have hrun : callAndBranch.resolve [0x1000] (entryAt 0x1100) =
      some [[0x40000040, 0x1080003F, 0x1F000004, 0x9E13E100]] := by
    rw [resolve_callAndBranch, RelocatableCode.obtain_of_placed rfl aligned_0x1000 rfl]
    rfl
  refine ⟨_, hrun, (oneAddress_iff ⟨fun _ => 0, 0, ⟨false, false, false, false⟩,
    ⟨false, false, false, false⟩, fun _ => 0, ()⟩ hops separate_callAndBranch hrun "f").mpr ?_⟩
  refine ⟨0x1100, forall_mem_cons.mpr ⟨fun _ _ _ _ => rfl, forall_mem_cons.mpr
    ⟨fun _ _ _ _ => rfl, forall_mem_singleton.mpr fun _ _ _ _ => rfl⟩⟩⟩

/-- If it has another one, the call goes to `0x1100` and the branch to `0x1200`. -/
theorem callAndBranch_differ : emitted callAndBranchOps = some callAndBranch ∧
    callAndBranch.resolve [0x1000] (entryAt 0x1200) =
      some [[0x40000040, 0x1080007F, 0x1F000004, 0x9E13E100]] ∧
    ¬ callAndBranch.OneAddress UnwoundCallRestore.addSem
      (callAndBranch.env [0x1000] (entryAt 0x1200))
      [[0x40000040, 0x1080007F, 0x1F000004, 0x9E13E100]] "f" := by
  refine ⟨rfl, ?_, ?_⟩
  · rw [resolve_callAndBranch, RelocatableCode.obtain_of_placed rfl aligned_0x1000 rfl]
    rfl
  · rintro ⟨a, h⟩
    obtain ⟨_, new, _, hnew, hcall⟩ := h (.callByName ⟨0, 0⟩ "f") (.tail _ (.head _)) rfl
    obtain rfl : [0x40000040] = new := some.inj hnew
    obtain ⟨pc, hpc, hcall⟩ := hcall trivial
    obtain rfl : 0x1000 = pc := some.inj hpc
    have hword : callandlink 0x1100 0x1000 = some 0x40000040 := by decide
    obtain rfl := (callsTo_iff hword).mp hcall
    obtain ⟨old, new, hold, hnew, hbranch⟩ := h (.interprocBranchToName ⟨0, 4⟩ "f") (.head _) rfl
    obtain rfl : [0x10800000] = old := some.inj hold
    obtain rfl : [0x1080007F] = new := some.inj hnew
    obtain ⟨pc, hpc, hbranch⟩ := hbranch trivial
    obtain rfl : 0x1004 = pc := some.inj hpc
    have hword : changeBranchOffset 0x10800000 0x1FC = some 0x1080007F := by decide
    exact absurd ((branchesTo_iff hword).mp hbranch) (by decide)

end Sample

end Kerninst
