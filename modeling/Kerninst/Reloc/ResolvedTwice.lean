import Kerninst.Reloc.ResolvedOnce

/-!
# Placing code again

`obtainFullyResolvedCode` works in place: the words that it replaces are those of the last time.
A branch, a word of data, or a pair that is patched becomes what it would have been anyhow. But
for calls and loads it first verifies that the dummy words are there, and they no longer are:

* a load never looks like the dummy, which loads 0 (`load_again`);
* a call looks like the dummy only if it has the dummy's displacement (`call_again`), so if it
  calls itself by name, or is at address 0 and was given an address.

So code with an unresolved load, or with most calls, can be placed once only
(`obtainFullyResolvedCode_again_iff`).
-/

namespace Kerninst

open ResolveEnv SparcInstr List Option Fixup

variable {off : InsnOffset}

/-! ## The words the second time -/

section Calls

/-- A call that is made has its displacement. -/
theorem SparcInstr.callandlink_fields {a pc : Kptr} {w : Word} (h : callandlink a pc = some w) :
    ((dispField 30 (a - pc).toInt).bind fun disp30 => rollAll [(2, 1), disp30]) = some w ∧
      field w 30 2 = 1 ∧ signedField w 0 30 * 4 = (a - pc).toInt := by
  obtain ⟨ok, hrange, h⟩ := exists_of_bind h
  obtain ⟨_, hok, hroll⟩ := exists_of_bind h
  obtain rfl := check_eq_some.mp hok
  have hreach : InReach 32 pc a := inReach_of_inRangeOf (le_refl _) hrange
  have hdisp := toInt_sub_of_inReach (le_refl _) hreach
  have h4 : (a - pc).toInt % 4 = 0 := by
    simp only [dispField, do_eq_some, check_eq_some] at hroll
    obtain ⟨-, ⟨-, h4, -⟩, -⟩ := hroll
    exact h4
  obtain ⟨hlo, hhi⟩ := hreach
  obtain ⟨w', hw', hop, himm⟩ := call_fields ⟨h4, by omega, by omega⟩
  obtain rfl : w' = w := mem_unique hw' hroll
  exact ⟨hroll, hop, himm⟩

/-- Calls with the same displacement are the same. -/
theorem SparcInstr.callandlink_eq_iff {a a' pc pc' : Kptr} {w w' : Word}
    (h : callandlink a pc = some w) (h' : callandlink a' pc' = some w') :
    w = w' ↔ a - pc = a' - pc' := by
  obtain ⟨hroll, -, himm⟩ := callandlink_fields h
  obtain ⟨hroll', -, himm'⟩ := callandlink_fields h'
  constructor
  · rintro rfl
    exact BitVec.eq_of_toInt_eq (himm.symm.trans himm')
  · intro heq
    rw [heq] at hroll
    exact mem_unique hroll hroll'

theorem callWords_eq_some {startAddr callee atEmit : Kptr} {ws : List Word × List Word}
    (h : callWords startAddr callee atEmit = some ws) : ∃ old new, ws = ([old], [new]) ∧
      callandlink atEmit 0 = some old ∧
      callandlink callee startAddr = some new := by
  simp only [callWords, genCallAndLinkGenericUnknownFromAddr, genCallAndLink, do_eq_some,
    check_eq_some] at h
  obtain ⟨_, ⟨_, -, old, hold, rfl⟩, _, ⟨_, -, _, -, new, hnew, rfl⟩, _, -, _, -, rfl⟩ := h
  simp only [length_singleton, Nat.sub_self, Nat.zero_mul, BitVec.add_zero] at hnew
  exact ⟨old, new, rfl, hold, hnew⟩

theorem rewrite_callFixup {pc callee atEmit : Kptr} {ok : Word → Bool} {vs vs' : List Word} :
    (callFixup off pc callee atEmit ok).rewrite vs = some vs' ↔
      ∃ w w', vs = [w] ∧ vs' = [w'] ∧ ok w = true ∧
        callWords pc callee atEmit = some ([w], [w']) := by
  rw [callFixup, rewrite_replacing_eq_some]
  constructor
  · rintro ⟨h, -⟩
    obtain ⟨current, hcurrent, h⟩ := exists_of_bind h
    obtain ⟨_, hok, hwords⟩ := exists_of_bind h
    obtain ⟨w, w', heq, -, -⟩ := callWords_eq_some hwords
    obtain ⟨rfl, rfl⟩ := Prod.mk.inj heq
    obtain rfl : w = current := some.inj hcurrent
    exact ⟨w, w', rfl, rfl, check_eq_some.mp hok, hwords⟩
  · rintro ⟨w, w', rfl, rfl, hok, h⟩
    refine ⟨?_, rfl⟩
    rw [head?_cons, bind_some, check_pos hok, bind_some, h]

/-- **A call again**: it has to have the dummy's displacement. -/
theorem call_again {pc callee pc' callee' atEmit : Kptr} {ok : Word → Bool}
    {old mid new : List Word} (hfirst : (callFixup off pc callee atEmit ok).rewrite old = some mid)
    (hfresh : (callFixup off pc' callee' atEmit ok).rewrite old = some new) :
    (callFixup off pc' callee' atEmit ok).rewrite mid = some new ↔ callee - pc = atEmit := by
  obtain ⟨w, w₁, rfl, rfl, hok, hwords⟩ := rewrite_callFixup.mp hfirst
  obtain ⟨old, _, heq, hold, hnew⟩ := callWords_eq_some hwords
  obtain ⟨h, h'⟩ := Prod.mk.inj heq
  obtain rfl := head_eq_of_cons_eq h
  obtain rfl := head_eq_of_cons_eq h'
  have hiff : w₁ = w ↔ callee - pc = atEmit := by
    rw [callandlink_eq_iff hnew hold]
    exact iff_of_eq (congrArg (callee - pc = ·) (BitVec.sub_zero atEmit))
  rw [← hiff]
  constructor
  · intro hagain
    obtain ⟨v, v', hv, rfl, -, hwords'⟩ := rewrite_callFixup.mp hagain
    obtain ⟨v₀, v₀', hv₀, hv₀', -, hfresh⟩ := rewrite_callFixup.mp hfresh
    obtain rfl := head_eq_of_cons_eq hv
    obtain rfl := head_eq_of_cons_eq hv₀
    have hsame := hwords'.symm.trans hfresh
    exact head_eq_of_cons_eq (Prod.mk.inj (some.inj hsame)).1
  · rintro rfl
    exact hfresh

end Calls

variable {ws : List Word}

section Loads

/-- The first instruction that loads a constant is no `sethi` of 0. -/
theorem head_gen32imm {val : Nat} (hval : val < 2 ^ 32) {rd : Reg} (h : gen32imm val rd = some ws) :
    ∃ w rest, ws = w :: rest ∧ ∀ r, decode w ≠ .sethi r 0 := by
  unfold gen32imm at h
  split at h
  case isTrue hsmall =>
    have hlo : -2 ^ 12 ≤ (val : Int) := by omega
    have hhi : (val : Int) < 2 ^ 12 := by omega
    obtain ⟨w, hw, hd⟩ := orImm_spec rd Reg.g0 hlo hhi
    rw [hw] at h
    obtain rfl := some.inj h
    refine ⟨w, [], rfl, fun r hr => ?_⟩
    rw [hd] at hr
    cases hr
  case isFalse hbig =>
    obtain ⟨w, hw, hd⟩ := sethicommon_spec (Nat.mod_lt (val / 2 ^ 10) (by decide : 0 < 2 ^ 22)) rd
    have hne : ∀ r, decode w ≠ .sethi r 0 := by
      intro r hr
      rw [hd] at hr
      have hzero := (Insn.sethi.inj hr).2
      omega
    rw [sethi, hw] at h
    simp only [run_do] at h
    split at h
    · obtain ⟨lo, -, h⟩ := exists_of_bind h
      obtain rfl := some.inj h
      exact ⟨w, [lo], rfl, hne⟩
    · obtain rfl := some.inj h
      exact ⟨w, [], rfl, hne⟩

theorem head_genImmAddr {addr : Kptr} {rd : Reg} (h : genImmAddr addr rd = some ws) :
    ∃ w rest, ws = w :: rest ∧ ∀ r, decode w ≠ .sethi r 0 := by
  obtain ⟨-, -, h⟩ := exists_of_bind h
  split at h
  · exact head_gen32imm (Nat.mod_lt _ (by decide)) h
  · obtain ⟨ws₁, hws₁, h⟩ := exists_of_bind h
    obtain ⟨shift, -, h⟩ := exists_of_bind h
    obtain ⟨w, rest, rfl, hne⟩ := head_gen32imm (Nat.mod_lt _ (by decide)) hws₁
    split at h
    · obtain ⟨lo, -, h⟩ := exists_of_bind h
      obtain rfl := some.inj h
      exact ⟨w, _, rfl, hne⟩
    · obtain rfl := some.inj h
      exact ⟨w, _, rfl, hne⟩

/-- The dummy begins with a `sethi` of 0. -/
theorem head_genImmAddrGeneric64 {rd : Reg} (h : genImmAddrGeneric64 0 rd true = some ws) :
    ∃ w rest, ws = w :: rest ∧ decode w = .sethi rd 0 := by
  simp only [genImmAddrGeneric64, genImmAddrGeneric32, if_true, do_eq_some] at h
  obtain ⟨-, -, w₁, hw₁, w₂, -, rfl⟩ := h
  obtain ⟨w, hw, hd⟩ := sethicommon_spec (by decide : 0 < 2 ^ 22) rd
  obtain rfl : w = w₁ := mem_unique hw hw₁
  exact ⟨w, [w₂], rfl, hd⟩

theorem setImmAddrWords_heads {rd : Reg} {addr : Kptr} {old new : List Word}
    (h : setImmAddrWords rd addr = some (old, new)) :
    (∃ w rest, old = w :: rest ∧ decode w = .sethi rd 0) ∧
      ∃ w rest, new = w :: rest ∧ ∀ r, decode w ≠ .sethi r 0 := by
  simp only [setImmAddrWords, Prod.mk.injEq, do_eq_some, check_eq_some] at h
  obtain ⟨oldv, hold, newv, hnew, -, -, nop, -, rfl, rfl⟩ := h
  obtain ⟨w, rest, rfl, hne⟩ := head_genImmAddr hnew
  exact ⟨head_genImmAddrGeneric64 hold, w, _, rfl, hne⟩

/-- **A load again** is refused. -/
theorem load_again {off off' : InsnOffset} {a a' : Kptr} {old mid : List Word}
    (hfirst : (loadFixup off a).rewrite old = some mid) :
    (loadFixup off' a').rewrite mid = none := by
  rw [eq_none_iff_forall_ne_some]
  intro new hagain
  obtain ⟨hfirst, -⟩ := rewrite_replacing_eq_some.mp hfirst
  obtain ⟨hagain, -⟩ := rewrite_replacing_eq_some.mp hagain
  obtain ⟨_, -, hfirst⟩ := exists_of_bind hfirst
  obtain ⟨_, -, hagain⟩ := exists_of_bind hagain
  obtain ⟨-, w, rest, hmid, hne⟩ := setImmAddrWords_heads hfirst
  obtain ⟨⟨w', rest', hmid', hd⟩, -⟩ := setImmAddrWords_heads hagain
  obtain rfl : w = w' := head_eq_of_cons_eq (hmid.symm.trans hmid')
  exact hne _ hd

end Loads

section Pairs

theorem patchSetHi_again {a a' : Kptr} {w w' : Word} (h : patchSetHi a w = some w') :
    patchSetHi a' w' = patchSetHi a' w := by
  simp only [patchSetHi, do_eq_some, check_eq_some] at h
  obtain ⟨-, hsethi, -, hrd, hw'⟩ := h
  have hs := spells_of_rollAll (by simp [intReg]) hw'
  have hop : field w' 30 2 = 0 := hs.get 0 rfl
  have hop2 : field w' 22 3 = 4 := hs.get 2 rfl
  have hrd' : regField w' 25 = regField w 25 := regField_eq (hs.get 1 rfl)
  have hsethi' : isSetHi w' = true := by simp [isSetHi, hop, hop2]
  simp [patchSetHi, check_pos hsethi, check_pos hsethi', hrd']

/-- What `patchBSetOrAdd` reads is as it was. -/
theorem patched_fields {op3 : Nat} (hop3 : op3 < 64) {rd rs1 : Reg} {lo : Nat} (hlo : lo < 2 ^ 10)
    {w' : Word} (h : setSimm13Style 2 rd op3 rs1 lo = some w') :
    field w' 30 2 = 2 ∧ field w' 19 6 = op3 ∧ bitField w' 13 = true ∧ regField w' 25 = rd ∧
      regField w' 14 = rs1 := by
  have hneg : -2 ^ 12 ≤ (lo : Int) := by omega
  have hhi : (lo : Int) < 2 ^ 12 := by omega
  obtain ⟨w, hw, hop, hop3', hrd, hrs1, hsrc⟩ :=
    setSimm13Style_spec hop3 rd rs1 hneg hhi
  obtain rfl : w = w' := mem_unique hw h
  refine ⟨hop, hop3', ?_, hrd, hrs1⟩
  by_contra hbit
  rw [operandField, if_neg hbit] at hsrc
  cases hsrc

theorem patchBSetOrAdd_again {a a' : Kptr} {w w' : Word} (h : patchBSetOrAdd a w = some w') :
    patchBSetOrAdd a' w' = patchBSetOrAdd a' w := by
  have hlo : a.toNat % 2 ^ 10 < 2 ^ 10 := Nat.mod_lt _ (by decide)
  unfold patchBSetOrAdd at h
  split at h
  case isTrue hor =>
    obtain ⟨hop, hop3, hi, hrd, hrs1⟩ := patched_fields (by decide) hlo h
    have hor' : isORImm w' = true := by simp [isORImm, hop, hop3, hi]
    rw [patchBSetOrAdd, patchBSetOrAdd, if_pos hor, if_pos hor', hrd, hrs1]
  case isFalse hor =>
    split at h
    case isTrue hadd =>
      obtain ⟨hop, hop3, hi, hrd, hrs1⟩ := patched_fields (by decide) hlo h
      have hor' : ¬ isORImm w' = true := by simp [isORImm, hop3]
      have hadd' : isAddImm w' = true := by simp [isAddImm, hop, hop3, hi]
      rw [patchBSetOrAdd, patchBSetOrAdd, if_neg hor, if_neg hor', if_pos hadd, if_pos hadd', hrd,
        hrs1]
    case isFalse => cases h

end Pairs

/-! ## Entries -/

/-- The entry, once resolved in `env`, can be resolved again. -/
def Item.Repeatable (env : ResolveEnv) : Item → Prop
  | .symAddr .. | .labelAddr .. => False
  | .callByName off s => env.callDest s = env.absoluteAddr off
  | .callByAddr off _ => env.absoluteAddr off = some 0
  | _ => True

section Entries

variable {old mid new : List Word}

theorem single_again {f g : Word → Option Word}
    (h : ∀ w w', f w = some w' → g w' = g w) (hfirst : (single off f).rewrite old = some mid)
    (hfresh : (single off g).rewrite old = some new) :
    (single off g).rewrite mid = some new := by
  obtain ⟨w, w₁, rfl, rfl, hf⟩ := rewrite_single_eq_some.mp hfirst
  obtain ⟨w₀, w₂, hw₀, rfl, hg⟩ := rewrite_single_eq_some.mp hfresh
  obtain rfl := head_eq_of_cons_eq hw₀
  exact rewrite_single_eq_some.mpr ⟨w₁, w₂, rfl, rfl, (h w w₁ hf).trans hg⟩

theorem sub_eq_self_iff (a b : Kptr) : a - b = a ↔ b = 0 := by
  constructor
  · intro h
    have hsum : a - b + b = a + b := by rw [h]
    rw [BitVec.sub_add_cancel] at hsum
    exact (BitVec.add_right_eq_self ..).mp hsum.symm
  · rintro rfl
    exact BitVec.sub_zero a

theorem sub_eq_zero_iff_eq (a b : Kptr) : a - b = 0 ↔ a = b := by
  constructor
  · intro h
    rw [← BitVec.sub_add_cancel a b, h]
    exact BitVec.zero_add b
  · rintro rfl
    exact BitVec.sub_self a

/-- **An entry again.** -/
theorem Item.again_iff {env env' : ResolveEnv} {item : Item} {f g : Fixup InsnOffset Word}
    (hf : item.fixup env = some f) (hg : item.fixup env' = some g)
    (hfirst : f.rewrite old = some mid)
    (hfresh : g.rewrite old = some new) : g.rewrite mid = some new ↔ item.Repeatable env := by
  cases item <;>
    simp only [Item.fixup, do_eq_some] at hf hg
  case branchToLabel off l =>
    obtain ⟨_, -, _, -, rfl⟩ := hf
    obtain ⟨_, -, _, -, rfl⟩ := hg
    exact iff_of_true (single_again (fun _ _ => changeBranchOffset_again) hfirst hfresh) trivial
  case interprocBranchToName off s =>
    obtain ⟨_, -, _, -, rfl⟩ := hf
    obtain ⟨_, -, _, -, rfl⟩ := hg
    exact iff_of_true (single_again (fun _ _ => changeBranchOffset_again) hfirst hfresh) trivial
  case interprocBranchToAddr off a =>
    obtain ⟨_, -, rfl⟩ := hf
    obtain ⟨_, -, rfl⟩ := hg
    exact iff_of_true (single_again (fun _ _ => changeBranchOffset_again) hfirst hfresh) trivial
  case callByName off s =>
    obtain ⟨pc, hpc, callee, hcallee, rfl⟩ := hf
    obtain ⟨_, -, _, -, rfl⟩ := hg
    rw [call_again hfirst hfresh, Item.Repeatable, hpc, hcallee, some.injEq]
    exact sub_eq_zero_iff_eq callee pc
  case callByAddr off a =>
    obtain ⟨pc, hpc, rfl⟩ := hf
    obtain ⟨_, -, rfl⟩ := hg
    rw [call_again hfirst hfresh, Item.Repeatable, hpc, some.injEq]
    exact sub_eq_self_iff a pc
  case symAddr off s =>
    obtain ⟨_, -, _, -, rfl⟩ := hf
    obtain ⟨_, -, _, -, rfl⟩ := hg
    rw [load_again hfirst]
    exact iff_of_false (fun h => by cases h) id
  case labelAddrAsData off l =>
    obtain ⟨_, -, _, -, rfl⟩ := hf
    obtain ⟨_, -, _, -, rfl⟩ := hg
    exact iff_of_true (single_again (fun _ _ _ => rfl) hfirst hfresh) trivial
  case labelDifference off info =>
    obtain ⟨_, -, _, -, _, -, _, -, _, -, rfl⟩ := hf
    obtain ⟨_, -, _, -, _, -, _, -, _, -, rfl⟩ := hg
    exact iff_of_true (single_again (fun _ _ _ => rfl) hfirst hfresh) trivial
  case labelAddr off l =>
    obtain ⟨_, -, rfl⟩ := hf
    obtain ⟨_, -, rfl⟩ := hg
    rw [load_again hfirst]
    exact iff_of_false (fun h => by cases h) id
  case backpatch info =>
    obtain ⟨_, -, offs, -, rfl⟩ := hf
    obtain ⟨_, -, offs', -, rfl⟩ := hg
    obtain ⟨w₁, w₂, v₁, v₂, rfl, rfl, hv₁, hv₂⟩ := rewrite_pair_eq_some.mp hfirst
    obtain ⟨_, _, u₁, u₂, heq, rfl, hu₁, hu₂⟩ := rewrite_pair_eq_some.mp hfresh
    obtain ⟨rfl, rfl⟩ := heq
    refine iff_of_true (rewrite_pair_eq_some.mpr ⟨v₁, v₂, u₁, u₂, rfl, rfl, ?_, ?_⟩) trivial
    · rw [patchSetHi_again hv₁, hu₁]
    · rw [patchBSetOrAdd_again hv₂, hu₂]

end Entries

/-! ## All entries -/

namespace RelocatableCode

/-- No word belongs to two entries. -/
def Apart (rc : RelocatableCode) : Prop :=
  (rc.unresolved.items.flatMap (Item.places rc.labels)).Nodup

/-- **What is emitted is apart.** -/
theorem apart_of_emitted {ops : List TempBufferEmitter.Op} {e e' : TempBufferEmitter}
    (hops : TempBufferEmitter.emitted ops = some e) (hs : e.Separate)
    (hcomplete : e.complete = some e') {rc : RelocatableCode} (hrc : ofEmitter e' = some rc) :
    rc.Apart := by
  have he := wellEmitted_of_emitted hops
  obtain ⟨early, u, hperm, -, -, heq⟩ := complete_spec he.notCompleted hs.labels
  obtain ⟨c, -, rfl⟩ := map_eq_some_iff.mp (heq.symm.trans hcomplete)
  obtain rfl := some.inj hrc
  have hnodup := (hperm.flatMap_right (Item.places e.labels)).nodup_iff.mpr (nodup_places he hs)
  rw [flatMap_append] at hnodup
  exact (nodup_append.mp hnodup).2.1

/-- What is done about an entry, which is refused if an address is not found. -/
def late (env : ResolveEnv) (item : Item) : Fixup InsnOffset Word :=
  .orRefuse (item.places env.labels) (item.fixup env)

section Twice

variable {rc : RelocatableCode} {chunkStartAddrs : List Kptr} {oracle : ResolverOracle}

/-- The places do not depend on the placement. -/
theorem places_late_env (item : Item) :
    (late (rc.env chunkStartAddrs oracle) item).places = item.places rc.labels :=
  places_orRefuse fun _ => Item.places_fixup

theorem nodup_late (h : rc.Apart) :
    ((rc.unresolved.items.map (late (rc.env chunkStartAddrs oracle))).flatMap places).Nodup := by
  rw [flatMap_map, flatMap_congr fun item _ => places_late_env item]
  exact h

/-- The result, as a list of fixups. -/
theorem obtain_eq_some_iff (h : rc.Apart) {rc' : RelocatableCode} :
    rc.obtainFullyResolvedCode chunkStartAddrs oracle = some rc' ↔
      rc.checkPlacement chunkStartAddrs = some () ∧ ∃ c,
        runAll chunkCells (rc.unresolved.items.map (late (rc.env chunkStartAddrs oracle)))
          rc.fullyResolvedCodeCache = some c ∧ rc' = { rc with fullyResolvedCodeCache := c } := by
  have hrun : rc.unresolved.items.foldlM (resolveItem (rc.env chunkStartAddrs oracle))
      rc.fullyResolvedCodeCache = runAll chunkCells
        (rc.unresolved.items.map (late (rc.env chunkStartAddrs oracle)))
          rc.fullyResolvedCodeCache := by
    rw [runAll, foldlM_map]
    refine foldlM_congr (fun item hitem c => ?_) _
    rw [late, run_orRefuse, resolveItem_eq (nodup_of_mem h hitem)]
  rw [obtain_eq, hrun, bind_eq_some_iff]
  simp only [map_eq_some_iff, eq_comm (a := rc')]
  constructor
  · rintro ⟨_, hcheck, hc⟩
    exact ⟨hcheck, hc⟩
  · rintro ⟨hcheck, hc⟩
    exact ⟨(), hcheck, hc⟩

/-- Both times an entry was resolved, it had words and addresses to be resolved with. -/
theorem result_late {item : Item} {c : Chunks} {env : ResolveEnv}
    (h : (late env item).result chunkCells c = some ws) : ∃ f old, item.fixup env = some f ∧
      (item.places env.labels).mapM (chunkCells.read c) = some old ∧ f.rewrite old = some ws := by
  rw [late, result_orRefuse] at h
  obtain ⟨f, hf, hresult⟩ := exists_of_bind h
  obtain ⟨old, hold, hrewrite⟩ := exists_of_bind hresult
  rw [Item.places_fixup hf] at hold
  exact ⟨f, old, hf, hold, hrewrite⟩

/-- **Placing code again** has the same result as placing a fresh copy, exactly if there are no
loads to be resolved, each call by name was to itself, and each call by address was at 0. -/
theorem obtainFullyResolvedCode_again_iff (hapart : rc.Apart) {chunkStartAddrs' : List Kptr}
    {oracle' : ResolverOracle} {rcP rcQ : RelocatableCode}
    (hP : rc.obtainFullyResolvedCode chunkStartAddrs oracle = some rcP)
    (hQ : rc.obtainFullyResolvedCode chunkStartAddrs' oracle' = some rcQ) :
    rcP.obtainFullyResolvedCode chunkStartAddrs' oracle' = some rcQ ↔
      ∀ item ∈ rc.unresolved.items, item.Repeatable (rc.env chunkStartAddrs oracle) := by
  obtain ⟨-, cP, hcP, rfl⟩ := (obtain_eq_some_iff hapart).mp hP
  obtain ⟨hcheck, cQ, hcQ, rfl⟩ := (obtain_eq_some_iff hapart).mp hQ
  obtain ⟨hlen, haligned, hsizes⟩ := checkPlacement_eq_some_iff.mp hcheck
  have hnodup : ((rc.unresolved.items.map (late (rc.env chunkStartAddrs oracle))).flatMap
      places).Nodup := nodup_late hapart
  have hnodup' : ((rc.unresolved.items.map (late (rc.env chunkStartAddrs' oracle'))).flatMap
      places).Nodup := nodup_late hapart
  have hresult := runAll_again_iff hnodup
    (fun item => (places_late_env item).trans (places_late_env item).symm) hcP hcQ
  have hsame : obtainFullyResolvedCode { rc with fullyResolvedCodeCache := cP } chunkStartAddrs'
      oracle' = some { rc with fullyResolvedCodeCache := cQ } ↔ ∃ c, runAll chunkCells
          (rc.unresolved.items.map (late (rc.env chunkStartAddrs' oracle'))) cP = some c ∧
            ∀ off, chunkCells.read c off = chunkCells.read cQ off := by
    have hapart' : Apart { rc with fullyResolvedCodeCache := cP } := hapart
    rw [obtain_eq_some_iff hapart']
    constructor
    · rintro ⟨-, c, hc, heq⟩
      obtain rfl : cQ = c := congrArg fullyResolvedCodeCache heq
      exact ⟨cQ, hc, fun _ => rfl⟩
    · rintro ⟨c, hc, hread⟩
      have hsize : c.map length = cQ.map length := by
        rw [map_length_runAll hc, map_length_runAll hcP, map_length_runAll hcQ]
      refine ⟨checkPlacement_eq_some_iff.mpr ⟨hlen, haligned, ?_⟩, c, hc, ?_⟩
      · exact (map_length_runAll hcP).trans hsizes
      · rw [chunks_ext hsize hread]
  rw [hsame, hresult]
  refine forall₂_congr fun item hitem => ?_
  -- what was there, what it was made, and what a fresh copy has
  obtain ⟨mid, hmid⟩ := isSome_iff_exists.mp ((runAll_isSome_iff hnodup).mp
    (isSome_of_eq_some hcP) _ (mem_map_of_mem hitem))
  obtain ⟨new, hnew⟩ := isSome_iff_exists.mp ((runAll_isSome_iff hnodup').mp
    (isSome_of_eq_some hcQ) _ (mem_map_of_mem hitem))
  obtain ⟨f, old, hf, hold, hfirst⟩ := result_late hmid
  obtain ⟨g, old', hg, hold', hfresh⟩ := result_late hnew
  obtain rfl : old = old' := mem_unique hold hold'
  rw [result, (places_late_env item).trans (places_late_env item).symm,
    runAll_results hnodup hcP _ (mem_map_of_mem hitem), hmid, hnew, bind_some, late, hg]
  exact Item.again_iff hf hg hfirst hfresh

/-- **Entries do not affect each other**: the words of an entry become what resolving it alone makes
of them, and words of no entry stay. -/
theorem obtainFullyResolvedCode_each (hapart : rc.Apart) {rc' : RelocatableCode}
    (h : rc.obtainFullyResolvedCode chunkStartAddrs oracle = some rc') :
    (∀ item ∈ rc.unresolved.items, ∃ c, resolveItem (rc.env chunkStartAddrs oracle)
        rc.fullyResolvedCodeCache item = some c ∧ ∀ off ∈ item.places rc.labels,
          offset2Insn rc'.fullyResolvedCodeCache off = offset2Insn c off) ∧
      ∀ off, (∀ item ∈ rc.unresolved.items, off ∉ item.places rc.labels) →
        offset2Insn rc'.fullyResolvedCodeCache off = offset2Insn rc.fullyResolvedCodeCache off := by
  obtain ⟨-, c', hc', rfl⟩ := (obtain_eq_some_iff hapart).mp h
  have hnodup : ((rc.unresolved.items.map (late (rc.env chunkStartAddrs oracle))).flatMap
      places).Nodup := nodup_late hapart
  refine ⟨fun item hitem => ?_, fun off hoff => runAll_frame hc' off fun f hf => ?_⟩
  · have hplaces := nodup_of_mem hapart hitem
    have hall := runAll_results hnodup hc' _ (mem_map_of_mem hitem)
    have hsome := (runAll_isSome_iff hnodup).mp (isSome_of_eq_some hc') _ (mem_map_of_mem hitem)
    obtain ⟨c, hc⟩ := isSome_iff_exists.mp (isSome_map.trans hsome)
    have halone := places_of_run ((places_late_env item).symm ▸ hplaces) hc
    rw [← hall, places_late_env] at halone hsome
    refine ⟨c, ?_, fun off hoff => (eq_of_mapM_eq halone hsome off hoff).symm⟩
    rw [resolveItem_eq hplaces, ← run_orRefuse]
    exact hc
  · obtain ⟨item, hitem, rfl⟩ := mem_map.mp hf
    rw [places_late_env]
    exact hoff item hitem

end Twice

/-! ### Three pieces of code -/

/-- A branch to another chunk, and that chunk's address as data. -/
def across : RelocatableCode where
  theChunks := [[0x02800000, 0x01000000], [0]]
  labels := Function.update (fun _ => none) "there" (some ⟨1, 0⟩)
  knownSymAddrs := fun _ => none
  unresolved :=
    { TempBufferEmitter.create.unresolved with
      branchesToLabels := [(⟨0, 0⟩, "there")], labelAddrsAsData := [(⟨1, 0⟩, "there")] }
  fullyResolvedCodeCache := [[0x02800000, 0x01000000], [0]]

/-- `across`, when it is at `0x1000` and `0x2000`. -/
def acrossNear : RelocatableCode :=
  { across with fullyResolvedCodeCache := [[0x02800400, 0x01000000], [0x2000]] }

def acrossFar : RelocatableCode :=
  { across with fullyResolvedCodeCache := [[0x02800800, 0x01000000], [0x3000]] }

theorem across_again :
    acrossNear.obtainFullyResolvedCode [0x1000, 0x3000] noOracle = some acrossFar := by
  have hapart : across.Apart := by
    unfold Apart
    decide
  have hnear : across.obtainFullyResolvedCode [0x1000, 0x2000] noOracle = some acrossNear :=
    obtain_of_placed rfl (by simp) rfl
  have hfar : across.obtainFullyResolvedCode [0x1000, 0x3000] noOracle = some acrossFar :=
    obtain_of_placed rfl (by simp) rfl
  refine (obtainFullyResolvedCode_again_iff hapart hnear hfar).mpr ?_
  exact forall_mem_cons.mpr ⟨trivial, forall_mem_singleton.mpr trivial⟩

/-- The delay slot of the branch stays. -/
theorem across_nop : offset2Insn acrossNear.fullyResolvedCodeCache ⟨0, 4⟩ = some 0x01000000 := by
  have hapart : across.Apart := by
    unfold Apart
    decide
  have hnear : across.obtainFullyResolvedCode [0x1000, 0x2000] noOracle = some acrossNear :=
    obtain_of_placed rfl (by simp) rfl
  exact (obtainFullyResolvedCode_each hapart hnear).2 ⟨0, 4⟩ (by decide)

/-- `set top, %o7` at `top`. -/
def loadsItself : RelocatableCode where
  theChunks := [[0x1F000000, 0x9E13E000]]
  labels := Function.update (fun _ => none) "top" (some ⟨0, 0⟩)
  knownSymAddrs := fun _ => none
  unresolved := { TempBufferEmitter.create.unresolved with labelAddrs := [(⟨0, 0⟩, "top")] }
  fullyResolvedCodeCache := [[0x1F000000, 0x9E13E000]]

/-- `call 0x4000`. -/
def callsAddr : RelocatableCode where
  theChunks := [[0x40001000]]
  labels := fun _ => none
  knownSymAddrs := fun _ => none
  unresolved := { TempBufferEmitter.create.unresolved with callsByAddr := [(⟨0, 0⟩, 0x4000)] }
  fullyResolvedCodeCache := [[0x40001000]]

/-- They can be placed at `0x1000` or at `0x2000`, but not at one after the other. -/
theorem load_call_not_again :
    (loadsItself.obtainFullyResolvedCode [0x1000] noOracle =
        some { loadsItself with fullyResolvedCodeCache := [[0x1F000004, 0x01000000]] } ∧
      loadsItself.obtainFullyResolvedCode [0x2000] noOracle =
        some { loadsItself with fullyResolvedCodeCache := [[0x1F000008, 0x01000000]] } ∧
      obtainFullyResolvedCode
        { loadsItself with fullyResolvedCodeCache := [[0x1F000004, 0x01000000]] } [0x2000]
          noOracle =
          none) ∧
    callsAddr.obtainFullyResolvedCode [0x1000] noOracle =
        some { callsAddr with fullyResolvedCodeCache := [[0x40000C00]] } ∧
      callsAddr.obtainFullyResolvedCode [0x2000] noOracle =
        some { callsAddr with fullyResolvedCodeCache := [[0x40000800]] } ∧
      obtainFullyResolvedCode
        { callsAddr with fullyResolvedCodeCache := [[0x40000C00]] } [0x2000] noOracle = none := by
  have h4 : ∀ a ∈ [(0x2000 : Kptr)], a.toNat % 4 = 0 := forall_mem_singleton.mpr rfl
  refine ⟨⟨?_, ?_, ?_⟩, ?_, ?_, ?_⟩
  · exact obtain_of_placed rfl aligned_0x1000 rfl
  · exact obtain_of_placed rfl h4 rfl
  · exact obtain_of_placed rfl h4 rfl
  · exact obtain_of_placed rfl aligned_0x1000 rfl
  · exact obtain_of_placed rfl h4 rfl
  · exact obtain_of_placed rfl h4 rfl

end RelocatableCode

end Kerninst
