import Kerninst.Sparc.CondBranch

/-!
# Conditional branches with a register free after them

The layout of `condBranch_1FreeAfterInsn_LRAndR` is: the branch, a `nop`, a jump back for the
untaken case, and a jump to the destination. The branch must skip the code of the untaken
case. Its displacement counts the jump back but not the delay-slot instruction that follows
it when the annul bit is not set. So a taken branch without the annul bit first runs that
copy of the delay-slot instruction, and then the one after the second jump
(`Layout.run_taken_twice`).

The main result, `condBranch1FreeAfter_preserves_iff`, says that this is the only thing that
goes wrong with code that is emitted at all, apart from an `rd %pc` in the delay slot, which sees
its address in the patch.
-/

namespace Kerninst

open CondBranch1FreeAfter List
open Cpu (seq)
open BitVec (ofNat add_assoc ofNat_add)

universe u

variable {ρ : Type u} (sem : Sem ρ)

namespace CondBranch1FreeAfter

variable {patch launch : Kptr} {b : Branch} {delay : Word} {after : SparcRegSet}

/-- Both jumps can be built, and the code fits the space reserved for it. -/
def Fits (patch launch : Kptr) (b : Branch) (after : SparcRegSet) : Prop :=
  ∃ n₁ n₂, jumpNumBytes (patch + 8) (launch + 8) after (!b.annul) = some n₁ ∧
    jumpNumBytes (patch + BitVec.ofNat 64 (8 + n₁ + delayBytes b)) (b.destination launch) after
      true = some n₂ ∧
    8 + n₁ + delayBytes b + n₂ + 4 ≤ conservativeNumInsnBytesForRAndR

/-- The code of the layout: the branch skips the jump `nt`, but not the delay-slot
instruction after it. -/
structure Layout (patch launch : Kptr) (b : Branch) (delay : Word) (after : SparcRegSet)
    (slots : List Slot) where
  head : List Slot
  nt : List Word
  tk : List Word
  eq : slots = head ++ nt.map newSlot ++ (if b.annul then [] else [delaySlot delay]) ++
    tk.map newSlot ++ [delaySlot delay]
  numBytes_head : numBytes head = 8
  run_head : ∀ code p σ k, Holds code p head → Reaches sem code (Cpu.seq p σ k)
    (Cpu.seq (if σ.holds b.kind.tested b.condition then
      p + BitVec.ofNat 64 (8 + 4 * nt.length) else p + 8) σ k)
  run_nt : if b.annul then Jumps sem (patch + 8) nt (launch + 8) (intRegs after)
    else JumpsOpen sem (patch + 8) nt (launch + 8) (intRegs after)
  run_tk : JumpsOpen sem (patch + BitVec.ofNat 64 (8 + 4 * nt.length + delayBytes b)) tk
    (b.destination launch) (intRegs after)

theorem numBytes_emitted (b : Branch) (delay : Word) {head : List Slot} (nt : List Word)
    (hhead : numBytes head = 8) :
    numBytes (head ++ nt.map newSlot ++ (if b.annul then [] else [delaySlot delay])) =
      8 + 4 * nt.length + delayBytes b := by
  rw [numBytes_append, numBytes_append, hhead, numBytes_map_newSlot, numBytes_untakenDelay]

theorem emit_eq_ok (hb : b.Valid) (hpatch : patch.toNat % 4 = 0) (hlaunch : launch.toNat % 4 = 0)
    {slots : List Slot} (h : emit patch launch b delay after = .ok slots) :
    Fits patch launch b after ∧ numBytes slots ≤ conservativeNumInsnBytesForRAndR ∧
      Nonempty (Layout sem patch launch b delay after slots) := by
  simp only [emit, bind_eq_ok, asserted_eq_ok, check_eq_some] at h
  obtain ⟨j₁, hj₁, head, hhead, nt, hnt, j₂, hj₂, tk, htk, -, hsize, hslots⟩ := h
  have hto : (launch + 8).toNat % 4 = 0 := add_aligned hlaunch (by decide)
  obtain ⟨hn₁, hlen₁, hrun₁⟩ :=
    usualJump_of_generate sem (add_aligned hpatch (by decide)) hto hj₁ hnt
  have hle₁ := jumpNumBytes_le_24 hn₁
  rw [hlen₁] at hn₁ hhead
  obtain ⟨head', hhead', hlenHead, hrunHead⟩ := emitBranchAndNop_spec sem hb
    (show (8 + 4 * nt.length) % 4 = 0 by omega) (by omega)
  obtain rfl : head = head' := Option.mem_unique hhead hhead'
  have hemitted := numBytes_emitted b delay nt hlenHead
  have hmult := delayBytes_mod b
  rw [hemitted] at hj₂
  obtain ⟨hn₂, hlen₂, hrun₂⟩ := usualJump_of_generate sem
    (add_aligned hpatch (by omega)) (destination_aligned hb hlaunch) hj₂ htk
  obtain rfl := Except.ok.inj hslots
  refine ⟨⟨_, _, hn₁, hn₂, ?_⟩, hsize, ⟨⟨head, nt, tk, rfl, hlenHead, hrunHead, ?_, hrun₂⟩⟩⟩
  · rw [numBytes_append, numBytes_append, hemitted, numBytes_map_newSlot, ← hlen₂] at hsize
    exact hsize
  · cases hannul : b.annul <;> simpa [hannul] using hrun₁

/-- What fits is emitted. -/
theorem exists_emit (delay : Word) (hb : b.Valid) (hpatch : patch.toNat % 4 = 0)
    (hlaunch : launch.toNat % 4 = 0) (h : Fits patch launch b after) :
    ∃ slots, emit patch launch b delay after = .ok slots := by
  obtain ⟨n₁, n₂, hn₁, hn₂, hsize⟩ := h
  have hle₁ := jumpNumBytes_le_24 hn₁
  have hto : (launch + 8).toNat % 4 = 0 := add_aligned hlaunch (by decide)
  obtain ⟨j₁, nt, hj₁, hnt, hnum₁, hlen₁⟩ :=
    usualJump_of_size (add_aligned hpatch (by decide)) hto hn₁
  obtain ⟨head, hhead, hlenHead, -⟩ := emitBranchAndNop_spec idleSem hb
    (show (8 + n₁) % 4 = 0 by omega) (by omega)
  have hmult := delayBytes_mod b
  have hemitted := numBytes_emitted b delay nt hlenHead
  rw [hlen₁] at hemitted
  obtain ⟨j₂, tk, hj₂, htk, -, hlen₂⟩ := usualJump_of_size (add_aligned hpatch (by omega))
    (destination_aligned hb hlaunch) hn₂
  rw [← hemitted] at hj₂
  apply Exists.intro
  simp only [emit, bind_eq_ok, asserted_eq_ok, check_eq_some]
  refine ⟨j₁, hj₁, head, hnum₁ ▸ hhead, nt, hnt, j₂, hj₂, tk, htk, (), ?_, rfl⟩
  rw [numBytes_append, numBytes_append, hemitted, numBytes_map_newSlot, hlen₂]
  exact hsize

section Running

variable {sem : Sem ρ} {slots : List Slot} {code : Code}

variable (l : Layout sem patch launch b delay after slots) (hcode : Holds code patch slots)
include l hcode

/-- The code after the branch: at `patch + 8` for the untaken case, and after the first jump
for the taken one. -/
theorem Layout.holds_tail : Holds code patch l.head ∧
      Holds code (patch + 8) (l.nt.map newSlot ++ (if b.annul then [] else [delaySlot delay])) ∧
      Holds code (patch + ofNat 64 (8 + 4 * l.nt.length))
        ((if b.annul then [] else [delaySlot delay]) ++
          (l.tk.map newSlot ++ [delaySlot delay])) := by
  have heq := l.eq
  rw [heq] at hcode
  simp only [append_assoc] at hcode
  obtain ⟨hhead, hrest⟩ := hcode.append
  rw [← numBytes, l.numBytes_head] at hrest
  refine ⟨hhead, ?_, ?_⟩
  · rw [← append_assoc] at hrest
    exact hrest.append.1
  · have hafter := hrest.append.2
    rwa [length_map, add_assoc, ← ofNat_add] at hafter

variable (hplain : (decode delay).isPlain) {σ : Arch ρ}
include hplain

/-- The branch is not taken: the jump back, with the delay-slot instruction if the annul bit
is not set. -/
theorem Layout.run_untaken (huntaken : σ.holds b.kind.tested b.condition = false) :
    ∃ σ' pc, let out := b.outcome launch false
      Reaches sem code (seq patch σ 0) (seq out.1 σ' out.2) ∧
        RunsDelay sem delay pc (intRegs after) out.2 σ σ' ∧
        (out.2 ≠ 0 → code pc = some (delaySlot delay)) := by
  obtain ⟨hhead, hnt, -⟩ := l.holds_tail hcode
  have hrun := l.run_head code patch σ 0 hhead
  have hjump := l.run_nt
  rw [huntaken] at hrun
  cases hannul : b.annul with
  | true =>
    simp only [hannul, if_true, append_nil] at hnt hjump
    obtain ⟨σ', hback, hsame⟩ := hjump code σ 0 hnt
    refine ⟨σ', patch, ?_⟩
    simp only [Branch.outcome, hannul, Bool.false_eq_true, if_false, if_true]
    exact ⟨Reaches.trans hrun hback, hsame, fun h => absurd rfl h⟩
  | false =>
    simp only [hannul, Bool.false_eq_true, if_false] at hnt hjump
    obtain ⟨σ₁, hsame, hback⟩ := JumpsOpen.run_slot hjump hnt hplain σ 0
    have hat := hnt.append.2.head
    rw [length_map] at hat
    refine ⟨exec sem delay (patch + 8 + ofNat 64 (4 * l.nt.length)) σ₁,
      patch + 8 + ofNat 64 (4 * l.nt.length), ?_⟩
    simp only [Branch.outcome, hannul, Bool.false_eq_true, if_false]
    exact ⟨Reaches.trans hrun hback, ⟨σ₁, hsame, SameExcept.refl _ _⟩, fun _ => hat⟩

/-- The branch is taken and its annul bit is set: the jump to the destination, with the
delay-slot instruction. -/
theorem Layout.run_taken_annul (hannul : b.annul = true)
    (htaken : σ.holds b.kind.tested b.condition = true) :
    ∃ σ' pc, Reaches sem code (seq patch σ 0) (seq (b.destination launch) σ' 1) ∧
      RunsDelay sem delay pc (intRegs after) 1 σ σ' ∧ code pc = some (delaySlot delay) := by
  obtain ⟨hhead, -, htk⟩ := l.holds_tail hcode
  have hrun := l.run_head code patch σ 0 hhead
  have hjump := l.run_tk
  rw [htaken, if_pos rfl] at hrun
  simp only [hannul, if_true, nil_append] at htk
  simp only [delayBytes, hannul, if_true, Nat.add_zero] at hjump
  obtain ⟨σ₁, hsame, hthere⟩ := hjump.run_slot htk hplain σ 0
  have hat := htk.append.2.head
  rw [length_map] at hat
  exact ⟨_, _, Reaches.trans hrun hthere, ⟨σ₁, hsame, SameExcept.refl _ _⟩, hat⟩

/-- The branch is taken and its annul bit is not set: it lands on the delay-slot instruction
of the untaken case, and so that instruction runs twice. -/
theorem Layout.run_taken_twice (hannul : b.annul = false)
    (htaken : σ.holds b.kind.tested b.condition = true) :
    ∃ σ', Reaches sem code (seq patch σ 0) (seq (b.destination launch) σ' 2) := by
  obtain ⟨hhead, -, htk⟩ := l.holds_tail hcode
  have hrun := l.run_head code patch σ 0 hhead
  have hjump := l.run_tk
  rw [htaken, if_pos rfl] at hrun
  simp only [hannul, Bool.false_eq_true, if_false, singleton_append] at htk
  simp only [delayBytes, hannul, Bool.false_eq_true, if_false] at hjump
  have hdelay : step sem code (seq (patch + ofNat 64 (8 + 4 * l.nt.length)) σ 0) = some
      (seq (patch + ofNat 64 (8 + 4 * l.nt.length) + 4) (exec sem delay _ σ) 1) :=
    step_plain htk.head hplain
  have htail := htk.tail
  rw [ofNat_add, ← add_assoc] at hjump
  obtain ⟨σ₁, -, hthere⟩ := hjump.run_slot htail hplain
    (exec sem delay (patch + ofNat 64 (8 + 4 * l.nt.length)) σ) 1
  exact ⟨_, Reaches.trans (hrun.tail hdelay) hthere⟩

end Running

/-- An annulled branch, or one that is never taken, is relocated. -/
theorem Layout.relocates {sem : Sem ρ} {slots : List Slot}
    (l : Layout sem patch launch b delay after slots) (hsize : 4 * slots.length < 2 ^ 64)
    (hplain : (decode delay).isPlain) (hannul : b.annul = true ∨ b.neverTaken = true) :
    RelocatesBranch sem patch slots launch b delay (intRegs after) := by
  intro σ
  have hcode := holds_blockCode patch hsize
  cases htaken : σ.holds b.kind.tested b.condition with
  | false => exact l.run_untaken hcode hplain htaken
  | true =>
    have hset : b.annul = true := hannul.resolve_right fun hnever => by
      rw [Branch.holds_eq_false hnever] at htaken
      cases htaken
    obtain ⟨σ', pc, hrun, hdelay, hat⟩ := l.run_taken_annul hcode hplain hset htaken
    exact ⟨σ', pc, hrun, hdelay, fun _ => hat⟩

end CondBranch1FreeAfter

section Relocated

variable [Inhabited ρ] {w delay : Word} {b : Branch} {patch launch : Kptr}
  {before after : SparcRegSet} {followedByRestore followedByWriteToO7 anyPreReturnSnippets : Bool}

/-- A taken branch whose annul bit is not set runs its delay-slot instruction twice. -/
theorem condBranch1FreeAfter_not_preserves (hb : b.Valid) (hreal : b.reallyConditional)
    (hplain : (decode delay).isPlain) (hpatch : patch.toNat % 4 = 0)
    (hlaunch : launch.toNat % 4 = 0)
    (hfresh : conservativeNumInsnBytesForRAndR ≤ (b.destination launch - patch).toNat)
    (hannul : b.annul = false) (hnever : b.neverTaken = false) {slots : List Slot}
    (hemit : emit patch launch b delay after = .ok slots) :
    ¬ PreservesBranch sem patch slots launch b delay (intRegs after) := by
  intro hpreserves
  obtain ⟨-, hsize, ⟨l⟩⟩ := emit_eq_ok sem hb hpatch hlaunch hemit
  have hbound : 4 * slots.length ≤ 32 := hsize
  have hcode := holds_blockCode patch (show 4 * slots.length < 2 ^ 64 by omega)
  -- a run that is promised to end after one execution ends after two
  obtain ⟨σ, htaken⟩ := exists_taken (ρ := ρ) hb hreal hnever
  obtain ⟨σ₂, htwice⟩ := l.run_taken_twice hcode hplain hannul htaken
  obtain ⟨σ₁, honce, -⟩ := hpreserves σ
  have hout : b.outcome launch (σ.holds b.kind.tested b.condition) = (b.destination launch, 1) := by
    simp [Branch.outcome, htaken]
  rw [hout] at honce
  have hend : blockCode patch slots (b.destination launch) = none :=
    blockCode_eq_none (le_trans hsize hfresh)
  have hcount : 1 = 2 := congrArg Cpu.delays (honce.end_unique htwice hend hend)
  omega

/-- **The layout for one free register preserves the branch exactly if its annul bit is set**,
or the branch is never taken, if the jumps can be built and fit, and if the delay-slot
instruction is no `rd %pc` that is seen, or never runs. Neither the original code nor a
destination of the branch is in the patch. -/
theorem condBranch1FreeAfter_preserves_iff (hsem : OnlyRdPcReadsPc sem) (hd : decode w = .branch b)
    (hchosen : createLRAndR w followedByRestore followedByWriteToO7 before after
      anyPreReturnSnippets = some .condBranch1FreeAfter)
    (hplain : (decode delay).isPlain) (hpatch : patch.toNat % 4 = 0)
    (hlaunch : launch.toNat % 4 = 0)
    (hfresh : b.IsFresh patch launch conservativeNumInsnBytesForRAndR) :
    (∃ slots, emit patch launch b delay after = .ok slots ∧
      PreservesBranch sem patch slots launch b delay (intRegs after)) ↔
    (b.annul = true ∨ b.neverTaken = true) ∧
      Fits patch launch b after ∧ (¬ SeesPc delay ∅ ∨ b.neverRunsDelay = true) := by
  have hb : b.Valid := decode_branch_valid hd
  have hreal : b.reallyConditional = true := by
    simp only [createLRAndR, hd, do_eq_some] at hchosen
    obtain ⟨-, -, -, -, hchoice⟩ := hchosen
    by_contra hreal
    rw [chooseBranch, if_neg hreal] at hchoice
    split at hchoice <;> cases hchoice
  have hrelocates : ∀ slots, emit patch launch b delay after = .ok slots →
      b.annul = true ∨ b.neverTaken = true →
      (PreservesBranch sem patch slots launch b delay (intRegs after) ↔
        ¬ SeesPc delay ∅ ∨ b.neverRunsDelay = true) := by
    intro slots hemit hannul
    obtain ⟨-, hsize, ⟨l⟩⟩ := emit_eq_ok sem hb hpatch hlaunch hemit
    have hbound : 4 * slots.length ≤ 32 := hsize
    exact (l.relocates (by omega) hplain hannul).preserves_iff hsem hb hreal
      fun _ => hfresh.mono hsize
  constructor
  · rintro ⟨slots, hemit, hpreserves⟩
    have hannul : b.annul = true ∨ b.neverTaken = true := by
      by_contra hneither
      obtain ⟨hannul, hnever⟩ : b.annul = false ∧ b.neverTaken = false := by simpa using hneither
      exact condBranch1FreeAfter_not_preserves sem hb hreal hplain hpatch hlaunch
        hfresh.destination hannul hnever hemit hpreserves
    exact ⟨hannul, (emit_eq_ok sem hb hpatch hlaunch hemit).1,
      (hrelocates slots hemit hannul).mp hpreserves⟩
  · rintro ⟨hannul, hfits, hunseen⟩
    obtain ⟨slots, hemit⟩ := exists_emit delay hb hpatch hlaunch hfits
    exact ⟨slots, hemit, (hrelocates slots hemit hannul).mpr hunseen⟩

/-- `be,a .+64` at `0x10000000`, relocated to `0x20000000` with `%g1` free after it. -/
theorem condBranch1FreeAfter_preserves_be_a :
    ∃ slots, emit 0x20000000 0x10000000 ⟨.bicc, 1, true, 64⟩ 0x01000000
        ⟨2, 0, 0⟩ = .ok slots ∧
      PreservesBranch rdPcSem 0x20000000 slots 0x10000000 ⟨.bicc, 1, true, 64⟩ 0x01000000
        (intRegs ⟨2, 0, 0⟩) :=
  (condBranch1FreeAfter_preserves_iff rdPcSem onlyRdPcReadsPc_rdPcSem
    (by decide : decode 0x22800010 = _)
    (by decide : createLRAndR 0x22800010 false false .emptyset ⟨2, 0, 0⟩ false = _)
    (by decide) (by decide) (by decide) ⟨by decide, by decide, by decide⟩).mpr
    ⟨Or.inl rfl, ⟨12, 8, by decide, by decide, by decide⟩, .inl not_seesPc_nop⟩

/-- `be .+64`, the same branch with the annul bit not set, is relocated in this layout too,
and is not preserved. -/
theorem condBranch1FreeAfter_runs_delay_twice :
    decode 0x02800010 = .branch ⟨.bicc, 1, false, 64⟩ ∧
      createLRAndR 0x02800010 false false .emptyset ⟨2, 0, 0⟩ false = some .condBranch1FreeAfter ∧
      ∃ slots, emit 0x20000000 0x10000000 ⟨.bicc, 1, false, 64⟩ 0x01000000
          ⟨2, 0, 0⟩ = .ok slots ∧
        ¬ PreservesBranch idleSem 0x20000000 slots 0x10000000 ⟨.bicc, 1, false, 64⟩ 0x01000000
          (intRegs ⟨2, 0, 0⟩) := by
  have hd : decode 0x02800010 = .branch ⟨.bicc, 1, false, 64⟩ := by decide
  have hb := decode_branch_valid hd
  obtain ⟨slots, hemit⟩ := exists_emit 0x01000000 hb
    (by decide : (0x20000000 : Kptr).toNat % 4 = 0) (by decide : (0x10000000 : Kptr).toNat % 4 = 0)
    (⟨8, 8, by decide, by decide, by decide⟩ :
      Fits 0x20000000 0x10000000 ⟨.bicc, 1, false, 64⟩ ⟨2, 0, 0⟩)
  exact ⟨hd, by decide, slots, hemit, condBranch1FreeAfter_not_preserves idleSem hb (by decide)
    (by decide) (by decide) (by decide) (by decide) rfl rfl hemit⟩

end Relocated

end Kerninst
