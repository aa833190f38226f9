import Kerninst.Reloc.Resolved

/-!
# Completing and placing

`complete` resolves some entries and `obtainFullyResolvedCode` the others. Together they perform
the fixups of all entries, in some order (`resolve_eq_some_iff`). No word belongs to two of them, so
the order does not matter, and what becomes of each entry is what `outcome` says.

Pairs that are to be patched are found by labels, so it has to be assumed that they are apart
from each other and from other entries. For entries that are emitted this is a theorem.
-/

namespace Kerninst

open RelocatableCode List Option Item
open Fixup (runAll)

universe u

variable {ρ : Type u} (sem : Sem ρ)

namespace TempBufferEmitter

variable (e : TempBufferEmitter) (chunkStartAddrs : List Kptr) (oracle : ResolverOracle)

/-- What is known when the emitted code is placed. -/
def env : ResolveEnv := ⟨e.labels, e.knownSymAddrs, chunkStartAddrs, oracle⟩

/-- `complete`, the relocatable code object, and one `obtainFullyResolvedCode`. -/
def resolve : Option Chunks := do
  let e ← e.complete
  let rc ← ofEmitter e
  let rc ← rc.obtainFullyResolvedCode chunkStartAddrs oracle
  pure rc.fullyResolvedCodeCache

/-- Everything is found and in range, no two sources disagree, and the pairs that are to be
patched are apart from all else. -/
structure InDomain : Prop where
  length : chunkStartAddrs.length = e.theChunks.length
  aligned : ∀ a ∈ chunkStartAddrs, a.toNat % 4 = 0
  small : ∀ chunk ∈ e.theChunks, 4 * chunk.length < 2 ^ 31
  agrees : (e.env chunkStartAddrs oracle).Agrees
  patched : (e.unresolved.items.flatMap (Item.patchedPlaces e.labels)).Nodup
  patchedApart : ∀ p ∈ e.unresolved.items.flatMap (Item.patchedPlaces e.labels),
    p ∉ e.unresolved.items.flatMap Item.emittedPlaces
  fits : ∀ item ∈ e.unresolved.items, ∃ old,
    (item.places e.labels).mapM (offset2Insn e.theChunks) = some old ∧
      item.Fits (e.env chunkStartAddrs oracle) old

/-- The labels that are asked for are defined, and the pairs that are to be patched are apart from
all else. -/
structure Separate : Prop where
  labels : ∀ item ∈ e.unresolved.items, item.LabelsDefined e.labels
  patched : (e.unresolved.items.flatMap (Item.patchedPlaces e.labels)).Nodup
  patchedApart : ∀ p ∈ e.unresolved.items.flatMap (Item.patchedPlaces e.labels),
    p ∉ e.unresolved.items.flatMap Item.emittedPlaces

/-- **Resolved code is right**: the words of each entry are what they should be, and all others
are as they were emitted. -/
def ResolvesCorrectly : Prop :=
  ∃ chunks, e.resolve chunkStartAddrs oracle = some chunks ∧
    (∀ item ∈ e.unresolved.items, ∃ old new,
      (item.places e.labels).mapM (offset2Insn e.theChunks) = some old ∧
      (item.places e.labels).mapM (offset2Insn chunks) = some new ∧
      item.Holds sem (e.env chunkStartAddrs oracle) old new) ∧
    ∀ off, (∀ item ∈ e.unresolved.items, off ∉ item.places e.labels) →
      offset2Insn chunks off = offset2Insn e.theChunks off

/-- No entry is one of those that are resolved wrongly. -/
def AvoidsAll : Prop :=
  ∀ item ∈ e.unresolved.items, ∀ old,
    (item.places e.labels).mapM (offset2Insn e.theChunks) = some old →
      item.Avoids (e.env chunkStartAddrs oracle) old

end TempBufferEmitter

/-! ## All fixups -/

/-- What is done about an entry, which is refused if an address is not found. -/
def Item.total (env : ResolveEnv) (item : Item) : Fixup InsnOffset Word :=
  .orRefuse (item.places env.labels) (item.fix env)

variable {old : List Word}

section Total

variable {env : ResolveEnv} {item : Item}

theorem Item.places_total : (item.total env).places = item.places env.labels := by
  refine Fixup.places_orRefuse fun f hf => ?_
  unfold fix at hf
  split at hf
  · exact places_earlyFixup hf
  · exact places_fixup hf

/-- The result depends on the words of the entry only. -/
theorem Item.result_total {chunks : Chunks}
    (hold : (item.places env.labels).mapM (offset2Insn chunks) = some old) :
    (item.total env).result chunkCells chunks = (item.fix env).bind fun f => f.rewrite old := by
  rw [Fixup.result, places_total]
  change (mapM (offset2Insn chunks) _).bind _ = _
  rw [hold, bind_some, total]
  cases item.fix env <;> rfl

end Total

section Resolve

variable {e : TempBufferEmitter} {chunkStartAddrs : List Kptr} {oracle : ResolverOracle}

/-- The entries' words are apart. -/
theorem nodup_places (he : WellEmitted e) (hs : e.Separate) :
    (e.unresolved.items.flatMap (places e.labels)).Nodup := by
  have hperm := flatMap_append_perm e.unresolved.items emittedPlaces (patchedPlaces e.labels)
  refine hperm.nodup_iff.mp (nodup_append.mpr ⟨he.apart, hs.patched, ?_⟩)
  rintro p hp q hq rfl
  exact hs.patchedApart p hq hp

theorem labelsDefined_of_fits {env : ResolveEnv} {item : Item} (h : item.Fits env old) :
    item.LabelsDefined env.labels := by
  cases item with
  | branchToLabel off l =>
    obtain ⟨a, ha, -⟩ := h
    obtain ⟨off, hoff, -⟩ := exists_of_bind ha
    exact isSome_of_eq_some hoff
  | labelDifference off info =>
    obtain ⟨-, delta, hdelta, -⟩ := h
    obtain ⟨off₁, h₁, hrest⟩ := exists_of_bind hdelta
    obtain ⟨off₂, h₂, -⟩ := exists_of_bind hrest
    exact ⟨isSome_of_eq_some h₁, isSome_of_eq_some h₂⟩
  | _ => trivial

theorem nodup_of_mem {α β : Type} {f : α → List β} {l : List α} (h : (l.flatMap f).Nodup) {a : α}
    (ha : a ∈ l) : (f a).Nodup :=
  (nodup_flatMap.mp h).1 a ha

theorem TempBufferEmitter.InDomain.separate (hd : e.InDomain chunkStartAddrs oracle) :
    e.Separate := by
  refine ⟨fun item hitem => ?_, hd.patched, hd.patchedApart⟩
  obtain ⟨old, -, hfits⟩ := hd.fits item hitem
  exact labelsDefined_of_fits hfits

/-- **Early and late together**: all fixups are performed, in some order. -/
theorem resolve_eq_some_iff (he : WellEmitted e) (hs : e.Separate) :
    ∃ order : List Item, order.Perm e.unresolved.items ∧ ∀ chunks,
      e.resolve chunkStartAddrs oracle = some chunks ↔
        (chunkStartAddrs.length = e.theChunks.length ∧ ∀ a ∈ chunkStartAddrs, a.toNat % 4 = 0) ∧
          runAll chunkCells (order.map (total (e.env chunkStartAddrs oracle))) e.theChunks =
            some chunks := by
  obtain ⟨early, u, hperm, hearly, hlate, hcomplete⟩ := complete_spec he.notCompleted hs.labels
  have hnodup : ((early ++ u.items).flatMap (places e.labels)).Nodup :=
    (hperm.flatMap_right _).nodup_iff.mpr (nodup_places he hs)
  refine ⟨early ++ u.items, hperm, fun chunks => ?_⟩
  have hfirst : early.foldlM (fixUpItem e) e.theChunks = runAll chunkCells
      (early.map (total (e.env chunkStartAddrs oracle))) e.theChunks := by
    rw [runAll, foldlM_map]
    refine foldlM_congr (fun item hitem c => ?_) _
    rw [total, Fixup.run_orRefuse, fix_of_early (hearly item hitem)]
    rfl
  rw [TempBufferEmitter.resolve, hcomplete, hfirst, map_append, Fixup.runAll_append]
  cases hrun : runAll chunkCells (early.map (total (e.env chunkStartAddrs oracle)))
      e.theChunks with
  | none => exact iff_of_false nofun fun h => nomatch h.2
  | some c =>
    -- the chunks have kept their sizes
    have hlen : c.length = e.theChunks.length := by
      have hsizes := congrArg length (map_length_runAll hrun)
      rwa [length_map, length_map] at hsizes
    have hsecond : u.items.foldlM (resolveItem (e.env chunkStartAddrs oracle)) c =
        runAll chunkCells (u.items.map (total (e.env chunkStartAddrs oracle))) c := by
      rw [runAll, foldlM_map]
      refine foldlM_congr (fun item hitem c => ?_) _
      rw [total, Fixup.run_orRefuse, fix_of_late (hlate item hitem),
        resolveItem_eq (nodup_of_mem hnodup (mem_append_right _ hitem))]
    change ((obtainFullyResolvedCode ⟨c, e.labels, e.knownSymAddrs, u, c⟩
      chunkStartAddrs oracle).bind fun rc => some rc.fullyResolvedCodeCache) = _ ↔ _
    rw [obtain_eq]
    change ((checkPlacement _ chunkStartAddrs).bind fun _ =>
      (u.items.foldlM (resolveItem (e.env chunkStartAddrs oracle)) c).map _).bind _ = _ ↔
        _ ∧ runAll chunkCells (u.items.map (total (e.env chunkStartAddrs oracle))) c = _
    rw [hsecond, ← hlen]
    cases hcheck : checkPlacement ⟨c, e.labels, e.knownSymAddrs, u, c⟩ chunkStartAddrs with
    | none =>
      refine iff_of_false nofun fun h => ?_
      cases hcheck.symm.trans (checkPlacement_eq_some_iff.mpr ⟨h.1.1, h.1.2, rfl⟩)
    | some _ =>
      obtain ⟨hlen', haligned, -⟩ := checkPlacement_eq_some_iff.mp hcheck
      rw [and_iff_right ⟨hlen', haligned⟩]
      cases runAll chunkCells (u.items.map (total (e.env chunkStartAddrs oracle))) c <;> rfl

variable {sem}

/-- The words of an entry are its dummies. -/
theorem dummies_of_places (he : WellEmitted e) {item : Item} (hitem : item ∈ e.unresolved.items)
    (hold : (item.places e.labels).mapM (offset2Insn e.theChunks) = some old) :
    item.Dummies old := by
  obtain ⟨ws, hws, hdummies⟩ := he.dummies item hitem
  cases item with
  | backpatch info => trivial
  | _ =>
    simp only [places, patchedPlaces, append_nil, hws] at hold
    obtain rfl := some.inj hold
    exact hdummies

theorem nodup_places_total (he : WellEmitted e) (hs : e.Separate) {order : List Item}
    (hperm : order.Perm e.unresolved.items) :
    ((order.map (total (e.env chunkStartAddrs oracle))).flatMap Fixup.places).Nodup := by
  rw [flatMap_map, flatMap_congr fun item _ => places_total]
  exact (hperm.flatMap_right _).nodup_iff.mpr (nodup_places he hs)

/-- **Code that is completed and placed is right** exactly if no floating-point branch leaves its
delay slot unannulled, and no difference of labels is negative, or zero across chunks. -/
theorem resolvesCorrectly_iff (hsem : KnowsAdd sem) {ops : List TempBufferEmitter.Op}
    (hops : TempBufferEmitter.emitted ops = some e) (hd : e.InDomain chunkStartAddrs oracle) :
    e.ResolvesCorrectly sem chunkStartAddrs oracle ↔ e.AvoidsAll chunkStartAddrs oracle := by
  have he := wellEmitted_of_emitted hops
  obtain ⟨order, hperm, hiff⟩ := resolve_eq_some_iff he hd.separate
  have hresolve := fun chunks => (hiff chunks).trans (and_iff_right ⟨hd.length, hd.aligned⟩)
  set env := e.env chunkStartAddrs oracle with henv
  have hnodup : ((order.map (total env)).flatMap Fixup.places).Nodup :=
    nodup_places_total he hd.separate hperm
  have hplaced : Placed env e.theChunks := ⟨hd.length, hd.aligned, hd.small, he.labels⟩
  -- what becomes of each entry
  have houtcome : ∀ item ∈ e.unresolved.items, ∃ old,
      (item.places e.labels).mapM (offset2Insn e.theChunks) = some old ∧
      Outcome sem env old item := by
    intro item hitem
    obtain ⟨old, hold, hfits⟩ := hd.fits item hitem
    exact ⟨old, hold, outcome hsem hplaced hd.agrees hold (dummies_of_places he hitem hold) hfits⟩
  have hmem : ∀ item ∈ e.unresolved.items, item.total env ∈ order.map (total env) :=
    fun item hitem => mem_map_of_mem (hperm.mem_iff.mpr hitem)
  constructor
  · rintro ⟨c, hc, hright, -⟩ item hitem old hold
    obtain ⟨old', hold', hout⟩ := houtcome item hitem
    obtain rfl := mem_unique hold hold'
    rw [hresolve c] at hc
    have hresult := Fixup.runAll_results hnodup hc _ (hmem item hitem)
    rw [places_total, result_total hold] at hresult
    obtain ⟨old₁, new, hold₁, hnew, hholds⟩ := hright item hitem
    obtain rfl := mem_unique hold hold₁
    rcases hout with ⟨hnone, -⟩ | ⟨new', hnew', hiff⟩
    · exact nomatch (hnew.symm.trans (hresult.trans hnone))
    · obtain rfl := some.inj (hnew.symm.trans (hresult.trans hnew'))
      exact hiff.mp hholds
  · intro havoids
    -- every entry is resolved, so that all are
    have hresults : ∀ item ∈ e.unresolved.items, ∃ old new,
        (item.places e.labels).mapM (offset2Insn e.theChunks) = some old ∧
        (item.total env).result chunkCells e.theChunks = some new ∧
        item.Holds sem env old new := by
      intro item hitem
      obtain ⟨old, hold, hout⟩ := houtcome item hitem
      have hok := havoids item hitem old hold
      rcases hout with ⟨-, hnot⟩ | ⟨new, hnew, hiff⟩
      · exact absurd hok hnot
      · exact ⟨old, new, hold, (result_total hold).trans hnew, hiff.mpr hok⟩
    have hsome : (runAll chunkCells (order.map (total env)) e.theChunks).isSome := by
      refine (Fixup.runAll_isSome_iff hnodup).mpr fun f hf => ?_
      obtain ⟨item, hitem, rfl⟩ := mem_map.mp hf
      obtain ⟨old, new, -, hnew, -⟩ := hresults item (hperm.mem_iff.mp hitem)
      exact isSome_of_eq_some hnew
    obtain ⟨c, hc⟩ := isSome_iff_exists.mp hsome
    refine ⟨c, (hresolve c).mpr hc, fun item hitem => ?_, fun off hoff => ?_⟩
    · obtain ⟨old, new, hold, hnew, hholds⟩ := hresults item hitem
      refine ⟨old, new, hold, ?_, hholds⟩
      have hresult := Fixup.runAll_results hnodup hc _ (hmem item hitem)
      rw [places_total] at hresult
      exact hresult.trans hnew
    · refine Fixup.runAll_frame hc off fun f hf => ?_
      obtain ⟨item, hitem, rfl⟩ := mem_map.mp hf
      rw [places_total]
      exact hoff item (hperm.mem_iff.mp hitem)

end Resolve

/-! ### Three pieces of code -/

section Samples

open TempBufferEmitter

/-- Nothing else is known. -/
def noOracle : ResolverOracle := ⟨fun _ => none, fun _ => none⟩

/-- Names are looked up among the labels only, so that no two sources can disagree. -/
theorem agrees_of_labels {env : ResolveEnv} (hknown : env.knownSymAddrs = fun _ => none)
    (horacle : env.oracle = noOracle) (hname : env.labels thisChunkAddr = none) : env.Agrees := by
  -- the name of the chunk is not a label
  have hsays : ∀ {n s a}, env.Says n s a → env.labelAddr s = some a ∨
      s = thisChunkAddr ∧ env.chunkStartAddrs[n]? = some a := by
    rintro n s a (h | h | h | h | h)
    · cases (congrFun hknown s).symm.trans h
    · exact Or.inl h
    · rw [horacle] at h
      cases h
    · rw [horacle] at h
      cases h
    · exact Or.inr h
  have hnot : ∀ {a}, env.labelAddr thisChunkAddr ≠ some a := by
    intro a h
    rw [ResolveEnv.labelAddr, hname] at h
    cases h
  intro n s a b ha hb
  rcases hsays ha with ha | ⟨hs, ha⟩
  · rcases hsays hb with hb | ⟨hs, hb⟩
    · exact mem_unique ha hb
    · exact absurd (hs ▸ ha) hnot
  · rcases hsays hb with hb | ⟨-, hb⟩
    · exact absurd (hs ▸ hb) hnot
    · exact mem_unique ha hb

/-- `be top; nop; set top, %o7`. -/
def loopOps : List Op :=
  [.emitLabel "top", .emitCondBranchToLabel 0x02800000 "top", .emitSequence [0x01000000],
    .emitLabelAddr "top" Reg.o7]

def loop : TempBufferEmitter :=
  { create with
    theChunks := [[0x02800000, 0x01000000, 0x1F000000, 0x9E13E000]]
    labels := Function.update (fun _ => none) "top" (some ⟨0, 0⟩)
    unresolved :=
      { create.unresolved with
        branchesToLabels := [(⟨0, 0⟩, "top")], labelAddrs := [(⟨0, 8⟩, "top")] } }

/-- `fba top`, whose delay slot is not annulled. -/
def floatOps : List Op := [.emitLabel "top", .emitCondBranchToLabel 0x11800000 "top"]

def float : TempBufferEmitter :=
  { create with
    theChunks := [[0x11800000]]
    labels := Function.update (fun _ => none) "top" (some ⟨0, 0⟩)
    unresolved := { create.unresolved with branchesToLabels := [(⟨0, 0⟩, "top")] } }

/-- The number of instructions from `after` back to `before`, as data. -/
def backOps : List Op :=
  [.emitLabel "before", .emitSequence [0x01000000, 0x01000000], .emitLabel "after",
    .emitLabelAddrMinusLabelAddrDividedBy "before" "after" 4]

def back : TempBufferEmitter :=
  { create with
    theChunks := [[0x01000000, 0x01000000, 0]]
    labels := Function.update (Function.update (fun _ => none) "before" (some ⟨0, 0⟩)) "after"
      (some ⟨0, 8⟩)
    unresolved :=
      { create.unresolved with
        labelAddrMinusLabelAddrThenDivides := [(⟨0, 8⟩, ⟨"before", "after", 4⟩)] } }

/-- What `back` is completed to. -/
def backDone : TempBufferEmitter :=
  { back with
    theChunks := [[0x01000000, 0x01000000, 0x3FFFFFFE]]
    unresolved := create.unresolved
    completed := true }

def backCode : RelocatableCode :=
  ⟨backDone.theChunks, back.labels, back.knownSymAddrs, create.unresolved, backDone.theChunks⟩

theorem aligned_0x1000 : ∀ a ∈ [(0x1000 : Kptr)], a.toNat % 4 = 0 :=
  forall_mem_singleton.mpr rfl

theorem inDomain_loop : loop.InDomain [0x1000] noOracle where
  length := rfl
  aligned := aligned_0x1000
  small := forall_mem_singleton.mpr (by decide)
  agrees := agrees_of_labels rfl rfl rfl
  patched := nodup_nil
  patchedApart := fun _ h => nomatch h
  fits := forall_mem_cons.mpr ⟨⟨[0x02800000], rfl, 0x1000, rfl, 0x1000, 0x02800000,
      ⟨.bicc, 1, false, 0⟩, rfl, rfl, by decide, by decide⟩, forall_mem_singleton.mpr
      ⟨[0x1F000000, 0x9E13E000], rfl, 0x1000, rfl, by decide, by decide⟩⟩

theorem inDomain_float : float.InDomain [0x1000] noOracle where
  length := rfl
  aligned := aligned_0x1000
  small := forall_mem_singleton.mpr (by decide)
  agrees := agrees_of_labels rfl rfl rfl
  patched := nodup_nil
  patchedApart := fun _ h => nomatch h
  fits := forall_mem_singleton.mpr ⟨[0x11800000], rfl, 0x1000, rfl, 0x1000, 0x11800000,
      ⟨.fbfcc, 8, false, 0⟩, rfl, rfl, by decide, by decide⟩

theorem inDomain_back : back.InDomain [0x1000] noOracle where
  length := rfl
  aligned := aligned_0x1000
  small := forall_mem_singleton.mpr (by decide)
  agrees := agrees_of_labels rfl rfl rfl
  patched := nodup_nil
  patchedApart := fun _ h => nomatch h
  fits := forall_mem_singleton.mpr ⟨[0], rfl, by decide, -8, rfl, by decide, by decide⟩

theorem resolvesCorrectly_loop :
    loop.ResolvesCorrectly UnwoundCallRestore.addSem [0x1000] noOracle := by
  have hops : emitted loopOps = some loop := rfl
  refine (resolvesCorrectly_iff UnwoundCallRestore.knowsAdd_addSem hops inDomain_loop).mpr ?_
  refine forall_mem_cons.mpr ⟨fun old hold w b hw hb => ?_, forall_mem_singleton.mpr ?_⟩
  · obtain rfl : [0x02800000] = old := some.inj hold
    obtain rfl := head_eq_of_cons_eq hw
    have hbe : pcRelative 0x02800000 = some (.branch ⟨.bicc, 1, false, 0⟩) := by decide
    obtain rfl := PcRelative.branch.inj (mem_unique hbe hb)
    exact fun h => nomatch h
  · exact fun _ _ => trivial

/-- The first is refused: the assertion tests `annul = false` by assigning it. The second becomes
`0x3FFFFFFE`, which is `-8` as an unsigned number divided by 4, and not `-2`. -/
theorem float_back_not_resolvesCorrectly :
    (emitted floatOps = some float ∧ float.InDomain [0x1000] noOracle ∧
      float.resolve [0x1000] noOracle = none ∧
      ¬ float.ResolvesCorrectly UnwoundCallRestore.addSem [0x1000] noOracle) ∧
    emitted backOps = some back ∧ back.InDomain [0x1000] noOracle ∧
      back.resolve [0x1000] noOracle = some [[0x01000000, 0x01000000, 0x3FFFFFFE]] ∧
      ¬ back.ResolvesCorrectly UnwoundCallRestore.addSem [0x1000] noOracle := by
  have hfloat : float.resolve [0x1000] noOracle = none := by rfl
  have hback : back.resolve [0x1000] noOracle = some [[0x01000000, 0x01000000, 0x3FFFFFFE]] := by
    have hobtain : backCode.obtainFullyResolvedCode [0x1000] noOracle = some backCode :=
      obtain_of_placed rfl aligned_0x1000 rfl
    rw [resolve, show back.complete = some backDone from rfl, bind_eq_bind, bind_some,
      show ofEmitter backDone = some backCode from rfl, bind_eq_bind, bind_some, hobtain]
    rfl
  refine ⟨⟨rfl, inDomain_float, hfloat, ?_⟩, rfl, inDomain_back, hback, ?_⟩
  · rintro ⟨c, hc, -⟩
    exact nomatch hfloat.symm.trans hc
  · rintro ⟨c, hc, hright, -⟩
    obtain rfl := mem_unique hback hc
    obtain ⟨old, new, -, hnew, delta, hdelta, hword⟩ := hright _ (mem_singleton_self _)
    obtain rfl : [0x3FFFFFFE] = new := some.inj hnew
    obtain rfl : -8 = delta := some.inj hdelta
    exact absurd hword (by decide)

end Samples

end Kerninst
