import Kerninst.Reloc.Patches

/-!
# What an emitter holds

Whatever has been emitted (`wellEmitted_of_emitted`):

* the words of each unresolved entry are the dummies that its routine emits, and no word belongs
  to two of them;
* each label is at the boundary of an instruction of its chunk, or at the end.

Only pairs that are to be patched are not under the emitter's control, since the caller says
where they are.

`complete_spec` says which entries are resolved early. The three loops of `complete` go over
their lists in an order of their own.
-/

namespace Kerninst

open List TempBufferEmitter Unresolved

/-! ## Appending -/

variable {chunks : Chunks}

/-- The words of what is appended. -/
theorem mapM_offset2Insn_of_append {n : Nat} : ∀ (ws pre : List Word),
    chunks[n]? = some (pre ++ ws) →
    (insnOffsets ⟨n, 4 * pre.length⟩ ws.length).mapM (offset2Insn chunks) = some ws := by
  intro ws
  induction ws with
  | nil => exact fun _ _ => rfl
  | cons w ws ih =>
    intro pre hchunk
    have hfirst : offset2Insn chunks ⟨n, 4 * pre.length⟩ = some w := by
      rw [offset2Insn_eq_some_iff]
      refine ⟨Nat.mul_mod_right 4 _, _, hchunk, ?_⟩
      rw [Nat.mul_div_cancel_left _ (by decide : 0 < 4), getElem?_append_right (le_refl _),
        Nat.sub_self, getElem?_cons_zero]
    have hrest := ih (pre ++ [w]) (by rw [hchunk, append_assoc, singleton_append])
    rw [length_append, length_singleton, Nat.mul_add] at hrest
    rw [length_cons, insnOffsets, mapM_cons, hfirst]
    exact congrArg (Option.bind · fun vs => some (w :: vs)) hrest

/-- There is nothing yet behind a chunk. -/
theorem offset2Insn_of_mem_insnOffsets {n k : Nat} {chunk : List Word}
    (hchunk : chunks[n]? = some chunk) {p : InsnOffset}
    (hp : p ∈ insnOffsets ⟨n, 4 * chunk.length⟩ k) : offset2Insn chunks p = none := by
  obtain ⟨i, -, rfl⟩ := mem_insnOffsets.mp hp
  have hend : chunk[(4 * chunk.length + 4 * i) / 4]? = none := getElem?_eq_none (by omega)
  rw [offset2Insn, InsnOffset.add, hchunk, Option.bind_eq_bind, Option.bind_some, hend]
  cases check ((4 * chunk.length + 4 * i) % 4 = 0) <;> rfl

variable {ws : List Word}

theorem offset2Insn_modify_append {n : Nat} {off : InsnOffset}
    {w : Word} (h : offset2Insn chunks off = some w) :
    offset2Insn (chunks.modify n (· ++ ws)) off = some w := by
  obtain ⟨h4, chunk, hchunk, hw⟩ := offset2Insn_eq_some_iff.mp h
  rw [offset2Insn_eq_some_iff]
  by_cases hn : n = off.chunkNdx
  · refine ⟨h4, chunk ++ ws, by rw [hn, getElem?_modify_eq, hchunk]; rfl, ?_⟩
    rw [List.getElem?_append_left (List.getElem?_eq_some_iff.mp hw).1, hw]
  · refine ⟨h4, chunk, ?_, hw⟩
    simp [getElem?_modify, if_neg hn, hchunk]

theorem mapM_offset2Insn_modify_append {n : Nat} :
    ∀ {offs : List InsnOffset} {vs : List Word}, offs.mapM (offset2Insn chunks) = some vs →
      offs.mapM (offset2Insn (chunks.modify n (· ++ ws))) = some vs := by
  intro offs
  induction offs with
  | nil => exact fun h => h
  | cons off offs ih =>
    intro vs h
    rw [mapM_cons] at h
    obtain ⟨v, hv, hrest⟩ := exists_of_bind h
    obtain ⟨vs', hvs', heq⟩ := exists_of_bind hrest
    rw [mapM_cons, offset2Insn_modify_append hv, ih hvs']
    exact heq

/-! ## The invariant of the emitter -/

/-- The words that are emitted for an entry. -/
def Item.Dummies : Item → List Word → Prop
  | .branchToLabel .., _ | .interprocBranchToName .., _ | .interprocBranchToAddr .., _
  | .backpatch _, _ => True
  | .callByName .., ws => SparcInstr.genCallAndLinkGenericUnknownFromAddr 0 = some ws
  | .callByAddr _ a, ws => SparcInstr.genCallAndLinkGenericUnknownFromAddr a = some ws
  | .symAddr .., ws | .labelAddr .., ws =>
    ∃ rd, SparcInstr.genImmAddrGeneric64 0 rd true = some ws
  | .labelAddrAsData .., ws | .labelDifference .., ws => ws = [0]

/-- An instruction of the chunk starts here, or the chunk ends. -/
def AtBoundary (chunks : Chunks) (off : InsnOffset) : Prop :=
  off.byteOffset % 4 = 0 ∧ ∃ chunk, chunks[off.chunkNdx]? = some chunk ∧
    off.byteOffset ≤ 4 * chunk.length

structure WellEmitted (e : TempBufferEmitter) : Prop where
  notCompleted : e.completed = false
  curr : e.currChunkNdx < e.theChunks.length
  dummies : ∀ item ∈ e.unresolved.items, ∃ ws,
    item.emittedPlaces.mapM (offset2Insn e.theChunks) = some ws ∧ item.Dummies ws
  apart : (e.unresolved.items.flatMap Item.emittedPlaces).Nodup
  labels : ∀ l off, e.labels l = some off → AtBoundary e.theChunks off

theorem Unresolved.items_append_perm (u : Unresolved) (item : Item) :
    (u.append item).items.Perm (item :: u.items) := by
  classical
  rw [perm_iff_count]
  intro a
  cases item <;>
    simp only [append, items, map_append, map_cons, map_nil,
      count_append, count_cons, count_nil] <;>
    omega

theorem AtBoundary.modify_append {off : InsnOffset} (h : AtBoundary chunks off)
    (n : Nat) (ws : List Word) : AtBoundary (chunks.modify n (· ++ ws)) off := by
  obtain ⟨h4, chunk, hchunk, hle⟩ := h
  refine ⟨h4, ?_⟩
  by_cases hn : n = off.chunkNdx
  · refine ⟨chunk ++ ws, by rw [hn, getElem?_modify_eq, hchunk]; rfl, ?_⟩
    rw [length_append]
    omega
  · exact ⟨chunk, by simp [getElem?_modify, if_neg hn, hchunk], hle⟩

namespace TempBufferEmitter

variable {e e' : TempBufferEmitter}

theorem emitSequence_eq (h : e.emitSequence ws = some e') :
    e' = { e with theChunks := e.theChunks.modify e.currChunkNdx (· ++ ws) } := by
  induction ws generalizing e with
  | nil =>
    cases h
    have hid : e'.theChunks.modify e'.currChunkNdx (fun chunk => chunk) = e'.theChunks := by
      apply ext_getElem?
      intro i
      simp [getElem?_modify]
    simp [hid]
  | cons w ws ih =>
    obtain ⟨e₁, he₁, hrest⟩ := exists_of_bind h
    simp only [emit, do_eq_some, check_eq_some] at he₁
    obtain ⟨-, -, -, -, rfl⟩ := he₁
    rw [ih hrest]
    simp [modify_modify_eq, Function.comp_def]

/-- The kinds of steps: code is appended or not, and something is noted or not. -/
inductive Stepped (e : TempBufferEmitter) : TempBufferEmitter → Prop
  | chunk : Stepped e e.beginNewChunk
  | switch {n : Nat} (hn : n < e.theChunks.length) : Stepped e { e with currChunkNdx := n }
  | words {ws : List Word} {e' : TempBufferEmitter} (h : e.emitSequence ws = some e') : Stepped e e'
  | label (l : String) {off : InsnOffset} (hoff : e.currInsnOffset = some off) :
    Stepped e { e with labels := Function.update e.labels l (some off) }
  | dummy (item : InsnOffset → Item) {ws : List Word} {e' : TempBufferEmitter}
    (h : e.emitUnresolved item ws = some e')
    (hitem : ∀ off, (item off).emittedPlaces = insnOffsets off ws.length ∧ (item off).Dummies ws) :
    Stepped e e'
  | known (s : String) (a : Kptr) :
    Stepped e { e with knownSymAddrs := Function.update e.knownSymAddrs s (some a) }
  | backpatch (info : SetHiBSetBackpatchInfo) :
    Stepped e { e with unresolved := e.unresolved.append (.backpatch info) }

theorem stepped_of_step {op : Op} (h : e.step op = some e') : Stepped e e' := by
  cases op with
  | beginNewChunk =>
    cases h
    exact .chunk
  | switchToChunk n =>
    simp only [step, switchToChunk, do_eq_some, check_eq_some] at h
    obtain ⟨-, hn, rfl⟩ := h
    exact .switch hn
  | emitSequence ws => exact .words h
  | emitLabel l =>
    simp only [step, emitLabel, dictionarySet, do_eq_some, check_eq_some] at h
    obtain ⟨-, -, off, hoff, -, ⟨-, -, rfl⟩, rfl⟩ := h
    exact .label l hoff
  | emitCondBranchToLabel i l => exact .dummy (.branchToLabel · l) h fun _ => ⟨rfl, trivial⟩
  | emitCondBranchToForwardLabel i l =>
    obtain ⟨-, -, h⟩ := exists_of_bind h
    exact .dummy (.branchToLabel · l) h fun _ => ⟨rfl, trivial⟩
  | emitInterprocCondBranchToName i s =>
    exact .dummy (.interprocBranchToName · s) h fun _ => ⟨rfl, trivial⟩
  | emitInterprocCondBranchToAddr i a =>
    exact .dummy (.interprocBranchToAddr · a) h fun _ => ⟨rfl, trivial⟩
  | emitCallByName s | emitCallByAddr a =>
    simp only [step, emitCallByName, emitCallByAddr, do_eq_some] at h
    obtain ⟨ws, hws, h⟩ := h
    exact .dummy _ h fun _ => ⟨by rw [length_genCallAndLinkGeneric hws]; rfl, hws⟩
  | emitSymAddr s rd | emitThisChunkAddr rd | emitLabelAddr l rd =>
    obtain ⟨ws, hws, h⟩ := exists_of_bind h
    exact .dummy _ h fun _ => ⟨by rw [length_genImmAddrGeneric64 hws]; rfl, rd, hws⟩
  | emitLabelAddrAsData l => exact .dummy (.labelAddrAsData · l) h fun _ => ⟨rfl, rfl⟩
  | emitLabelAddrMinusLabelAddrDividedBy l₁ l₂ d =>
    exact .dummy (.labelDifference · ⟨l₁, l₂, d⟩) h fun _ => ⟨rfl, rfl⟩
  | makeSymAddrKnown s a =>
    simp only [step, makeSymAddrKnown, dictionarySet, do_eq_some, check_eq_some] at h
    obtain ⟨-, -, -, ⟨-, -, rfl⟩, rfl⟩ := h
    exact .known s a
  | lateBackpatch locs l n =>
    cases h
    exact .backpatch ⟨locs, l, n⟩

end TempBufferEmitter

section Steps

variable {e e' : TempBufferEmitter}

theorem wellEmitted_create : WellEmitted .create where
  notCompleted := rfl
  curr := Nat.zero_lt_one
  dummies := fun _ h => nomatch h
  apart := nodup_nil
  labels := fun _ _ h => nomatch h

theorem WellEmitted.beginNewChunk (h : WellEmitted e) : WellEmitted e.beginNewChunk := by
  -- the chunks that were there are still there
  have hchunk : ∀ {i : Nat} {chunk : List Word}, e.theChunks[i]? = some chunk →
      (e.theChunks ++ [[]])[i]? = some chunk := fun hc => by
    rw [List.getElem?_append_left (List.getElem?_eq_some_iff.mp hc).1, hc]
  refine ⟨h.notCompleted, ?_, fun item hitem => ?_, h.apart, fun l off hl => ?_⟩
  · simp [TempBufferEmitter.beginNewChunk]
  · obtain ⟨ws, hws, hd⟩ := h.dummies item hitem
    refine ⟨ws, ?_, hd⟩
    rw [← hws]
    refine mapM_congr fun p hp => ?_
    obtain ⟨w, hw⟩ := Option.isSome_iff_exists.mp (isSome_of_mapM hws p hp)
    obtain ⟨h4, chunk, hc, hget⟩ := offset2Insn_eq_some_iff.mp hw
    rw [hw]
    exact offset2Insn_eq_some_iff.mpr ⟨h4, chunk, hchunk hc, hget⟩
  · obtain ⟨h4, chunk, hc, hle⟩ := h.labels l off hl
    exact ⟨h4, chunk, hchunk hc, hle⟩

theorem WellEmitted.currInsnOffset (h : WellEmitted e) : ∃ chunk,
    e.theChunks[e.currChunkNdx]? = some chunk ∧
      e.currInsnOffset = some ⟨e.currChunkNdx, 4 * chunk.length⟩ := by
  obtain ⟨chunk, hchunk⟩ : ∃ chunk, e.theChunks[e.currChunkNdx]? = some chunk :=
    ⟨_, getElem?_eq_getElem h.curr⟩
  refine ⟨chunk, hchunk, ?_⟩
  rw [TempBufferEmitter.currInsnOffset, hchunk]
  rfl

/-- Emitting only appends. -/
theorem WellEmitted.emitSequence (h : WellEmitted e) (hstep : e.emitSequence ws = some e') :
    WellEmitted e' := by
  rw [emitSequence_eq hstep]
  refine ⟨h.notCompleted, ?_, fun item hitem => ?_, h.apart, fun l off hl => ?_⟩
  · simpa using h.curr
  · obtain ⟨vs, hvs, hd⟩ := h.dummies item hitem
    exact ⟨vs, mapM_offset2Insn_modify_append hvs, hd⟩
  · exact (h.labels l off hl).modify_append _ _

theorem WellEmitted.emitUnresolved (h : WellEmitted e) {item : InsnOffset → Item}
    (hitem : ∀ off, (item off).emittedPlaces = insnOffsets off ws.length ∧ (item off).Dummies ws)
    (hstep : e.emitUnresolved item ws = some e') : WellEmitted e' := by
  obtain ⟨chunk, hchunk, hoff⟩ := h.currInsnOffset
  simp only [TempBufferEmitter.emitUnresolved, hoff, run_do] at hstep
  rw [emitSequence_eq hstep]
  set off : InsnOffset := ⟨e.currChunkNdx, 4 * chunk.length⟩
  have hperm := e.unresolved.items_append_perm (item off)
  obtain ⟨hplaces, hdummies⟩ := hitem off
  refine ⟨h.notCompleted, by simpa using h.curr, fun i hi => ?_, ?_, fun l o hl => ?_⟩
  · rcases mem_cons.mp (hperm.mem_iff.mp hi) with rfl | hi
    · refine ⟨ws, ?_, hdummies⟩
      rw [hplaces]
      refine mapM_offset2Insn_of_append ws chunk ?_
      rw [getElem?_modify_eq, hchunk]
      rfl
    · obtain ⟨vs, hvs, hd⟩ := h.dummies i hi
      exact ⟨vs, mapM_offset2Insn_modify_append hvs, hd⟩
  · -- the new words are not there yet, and those of other entries are
    rw [(hperm.flatMap_right _).nodup_iff, flatMap_cons, nodup_append, hplaces]
    refine ⟨nodup_insnOffsets .., h.apart, fun p hp q hq heq => ?_⟩
    obtain ⟨i, hi, hqi⟩ := mem_flatMap.mp hq
    obtain ⟨vs, hvs, -⟩ := h.dummies i hi
    have hsome := isSome_of_mapM hvs q hqi
    rw [← heq, offset2Insn_of_mem_insnOffsets hchunk hp] at hsome
    cases hsome
  · exact (h.labels l o hl).modify_append _ _

theorem WellEmitted.step (h : WellEmitted e) {op : Op} (hstep : e.step op = some e') :
    WellEmitted e' := by
  cases stepped_of_step hstep with
  | chunk => exact h.beginNewChunk
  | switch hn => exact { h with curr := hn }
  | words hws => exact h.emitSequence hws
  | @label l off hoff =>
    refine { h with labels := fun l' off' hl' => ?_ }
    dsimp only at hl'
    by_cases heq : l' = l
    · rw [heq, Function.update_self] at hl'
      obtain ⟨chunk, hchunk, hcurr⟩ := h.currInsnOffset
      obtain rfl : off = off' := Option.some.inj hl'
      obtain rfl : _ = off := Option.mem_unique hcurr hoff
      exact ⟨Nat.mul_mod_right 4 _, chunk, hchunk, le_refl _⟩
    · rw [Function.update_of_ne heq] at hl'
      exact h.labels l' off' hl'
  | dummy item hws hitem => exact h.emitUnresolved hitem hws
  | known s a => exact { h with }
  | backpatch info =>
    have hperm := e.unresolved.items_append_perm (.backpatch info)
    refine ⟨h.notCompleted, h.curr, fun i hi => ?_, ?_, h.labels⟩
    · rcases mem_cons.mp (hperm.mem_iff.mp hi) with rfl | hi
      · exact ⟨[], rfl, trivial⟩
      · exact h.dummies i hi
    · rw [(hperm.flatMap_right _).nodup_iff]
      exact h.apart

/-- **Whatever has been emitted.** -/
theorem wellEmitted_of_emitted {ops : List Op} (h : emitted ops = some e) : WellEmitted e :=
  foldlM_keeps ops wellEmitted_create (fun _ _ _ _ hi hs => hi.step hs) h

end Steps

/-! ## What is resolved early -/

/-- The entries that `complete` resolves. -/
def Item.isEarly (labels : String → Option InsnOffset) (knownSymAddrs : String → Option Kptr) :
    Item → Bool
  | .branchToLabel off l => (labels l).any fun labelOff => off.chunkNdx = labelOff.chunkNdx
  | .labelDifference _ info =>
    (labels info.label1).any fun off₁ => (labels info.label2).any fun off₂ =>
      off₁.chunkNdx = off₂.chunkNdx
  | .symAddr _ s => (knownSymAddrs s).isSome
  | _ => false

/-- The labels that `complete` asks for. -/
def Item.LabelsDefined (labels : String → Option InsnOffset) : Item → Prop
  | .branchToLabel _ l => (labels l).isSome
  | .labelDifference _ info => (labels info.label1).isSome ∧ (labels info.label2).isSome
  | _ => True

/-- Perform the fixup that `complete` has for an entry. -/
def fixUpItem (e : TempBufferEmitter) (chunks : Chunks) (item : Item) : Option Chunks :=
  (item.earlyFixup e.labels e.knownSymAddrs).bind fun f => f.run chunkCells chunks

/-- The entries of one of the three loops, as items. -/
theorem Swept.foldlM_items {α : Type} {e : TempBufferEmitter} {f : Chunks → α → Option Chunks}
    {early : α → Bool} {toItem : α → Item} {l done kept : List α}
    {r : Chunks → Option (List α × Chunks)} (h : Swept f early l r done kept)
    (hf : ∀ c x, f c x = fixUpItem e c (toItem x)) (c : Chunks) :
    r c = ((done.map toItem).foldlM (fixUpItem e) c).map (kept, ·) := by
  rw [h.result, foldlM_map]
  congr 2
  funext c x
  exact hf c x

/-- **What `complete` does**: some entries are fixed up, and the others are left. -/
theorem complete_spec {e : TempBufferEmitter} (h : e.completed = false)
    (hlabels : ∀ item ∈ e.unresolved.items, item.LabelsDefined e.labels) :
    ∃ (early : List Item) (u : Unresolved), (early ++ u.items).Perm e.unresolved.items ∧
      (∀ item ∈ early, item.isEarly e.labels e.knownSymAddrs = true) ∧
      (∀ item ∈ u.items, item.isEarly e.labels e.knownSymAddrs = false) ∧
      e.complete = (early.foldlM (fixUpItem e) e.theChunks).map fun c =>
        { e with theChunks := c, completed := true, unresolved := u } := by
  have hbranches : ∀ x ∈ e.unresolved.branchesToLabels, e.isLocalBranch x =
      some ((Item.branchToLabel x.1 x.2).isEarly e.labels e.knownSymAddrs) := fun x hx => by
    obtain ⟨labelOff, hl⟩ := Option.isSome_iff_exists.mp
      (hlabels (.branchToLabel x.1 x.2) (by simp [items]; grind))
    simp [isLocalBranch, Item.isEarly, hl]
  have hdifferences : ∀ x ∈ e.unresolved.labelAddrMinusLabelAddrThenDivides, e.isLocalDifference x =
        some ((Item.labelDifference x.1 x.2).isEarly e.labels e.knownSymAddrs) := fun x hx => by
    have h := hlabels (.labelDifference x.1 x.2) (by simp [items]; grind)
    obtain ⟨off₁, h₁⟩ := Option.isSome_iff_exists.mp h.1
    obtain ⟨off₂, h₂⟩ := Option.isSome_iff_exists.mp h.2
    simp [isLocalDifference, Item.isEarly, h₁, h₂]
  have hsyms : ∀ x ∈ e.unresolved.symAddrs, e.isKnownSymAddr x =
      some ((Item.symAddr x.1 x.2).isEarly e.labels e.knownSymAddrs) := fun _ _ => rfl
  obtain ⟨done₁, kept₁, h₁⟩ := sweepAll_spec (f := e.fixUpBranch) hbranches
  obtain ⟨done₂, kept₂, h₂⟩ := sweepAll_spec (f := e.fixUpDifference) hdifferences
  obtain ⟨done₃, kept₃, h₃⟩ := sweepAll_spec (f := e.fixUpSymAddr) hsyms
  have hr₁ := h₁.foldlM_items fun c x => fixUpBranch_eq e c x
  have hr₂ := h₂.foldlM_items fun c x => fixUpDifference_eq e c x
  have hr₃ := h₃.foldlM_items fun c x => fixUpSymAddr_eq e c x
  refine ⟨done₁.map (fun x => .branchToLabel x.1 x.2) ++
    done₂.map (fun x => .labelDifference x.1 x.2) ++ done₃.map (fun x => .symAddr x.1 x.2),
    { e.unresolved with
      branchesToLabels := kept₁
      labelAddrMinusLabelAddrThenDivides := kept₂
      symAddrs := kept₃ }, ?_, ?_, ?_, ?_⟩
  · classical
    rw [perm_iff_count]
    intro a
    have hc₁ := (h₁.perm.map fun x => Item.branchToLabel x.1 x.2).count_eq a
    have hc₂ := (h₂.perm.map fun x => Item.labelDifference x.1 x.2).count_eq a
    have hc₃ := (h₃.perm.map fun x => Item.symAddr x.1 x.2).count_eq a
    simp only [map_append, count_append] at hc₁ hc₂ hc₃
    simp only [items, count_append]
    omega
  · simp only [mem_append, mem_map]
    rintro item ((⟨x, hx, rfl⟩ | ⟨x, hx, rfl⟩) | ⟨x, hx, rfl⟩)
    · exact h₁.wereReady x hx
    · exact h₂.wereReady x hx
    · exact h₃.wereReady x hx
  · intro item hitem
    simp only [items, mem_append, mem_map, or_assoc] at hitem
    obtain ⟨x, hx, rfl⟩ | ⟨x, -, rfl⟩ | ⟨x, -, rfl⟩ | ⟨x, -, rfl⟩ | ⟨x, -, rfl⟩ | ⟨x, hx, rfl⟩ |
      ⟨x, -, rfl⟩ | ⟨x, hx, rfl⟩ | ⟨x, -, rfl⟩ | ⟨x, -, rfl⟩ := hitem
    case inl => exact h₁.wereNot x hx
    case inr.inr.inr.inr.inr.inl => exact h₃.wereNot x hx
    case inr.inr.inr.inr.inr.inr.inr.inl => exact h₂.wereNot x hx
    all_goals rfl
  · -- the second and third loops use the same labels and known symbols as the first
    rw [complete, check_pos h, foldlM_append, foldlM_append, fixUpUnresolvedBranchesToLabels, hr₁]
    cases (done₁.map _).foldlM (fixUpItem e) e.theChunks with
    | none => rfl
    | some c₁ =>
      change ((sweepAll e.isLocalDifference e.fixUpDifference _ c₁).bind _).bind _ =
        (((done₂.map _).foldlM (fixUpItem e) c₁).bind _).map _
      rw [hr₂]
      cases (done₂.map _).foldlM (fixUpItem e) c₁ with
      | none => rfl
      | some c₂ =>
        change ((sweepAll e.isKnownSymAddr e.fixUpSymAddr _ c₂).bind _).bind _ =
          ((done₃.map _).foldlM (fixUpItem e) c₂).map _
        rw [hr₃]
        cases (done₃.map _).foldlM (fixUpItem e) c₂ <;> rfl

end Kerninst
