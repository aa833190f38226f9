import Kerninst.Sparc.CondBranch

/-!
# Conditional branches with no register free after them

The layout of `condBranch_0FreeAfterInsn_LRAndR` has the delay-slot instruction before each
of its two jumps, and the branch skips all of the code for the untaken case. Whatever is
emitted is right, but for the address of the delay-slot instruction
(`CondBranch0FreeAfter.Layout.relocates`), so the question is only whether the two jumps can be
built and whether that address is seen. For addresses below 4 GB they can, unless the destination
wraps around below zero or a jump goes exactly 2 GB backwards (`CondBranch0FreeAfter.fits_iff`).
-/

namespace Kerninst

open BitVec
open Cpu (seq)
open BitVec (ofNat ofNat_add add_assoc)

universe u

variable {ρ : Type u} (sem : Sem ρ)

namespace CondBranch0FreeAfter

variable {patch launch : Kptr} {b : Branch} {delay : Word}

/-- Where the jump back stands. -/
def notTakenFrom (patch : Kptr) (b : Branch) : Kptr := patch + 8 + BitVec.ofNat 64 (delayBytes b)

/-- Where the jump to the destination stands, after a jump back of `n₁` bytes. -/
def takenFrom (patch : Kptr) (b : Branch) (n₁ : Nat) : Kptr :=
  patch + BitVec.ofNat 64 (8 + delayBytes b + n₁ + 4)

/-- Both jumps can be built. -/
def Fits (patch launch : Kptr) (b : Branch) : Prop :=
  ∃ n₁ n₂, jumpNumBytes (notTakenFrom patch b) (launch + 8) .emptyset false = some n₁ ∧
    jumpNumBytes (takenFrom patch b n₁) (b.destination launch) .emptyset false = some n₂

structure Layout (patch launch : Kptr) (b : Branch) (delay : Word) (slots : List Slot) where
  head : List Slot
  nt : List Word
  tk : List Word
  eq : slots = head ++ (if b.annul then [] else [delaySlot delay]) ++ nt.map newSlot ++
    [delaySlot delay] ++ tk.map newSlot
  numBytes_head : numBytes head = 8
  run_head : ∀ code p σ k, Holds code p head → Reaches sem code (Cpu.seq p σ k)
    (Cpu.seq (if σ.holds b.kind.tested b.condition then
      p + BitVec.ofNat 64 (8 + (delayBytes b + 4 * nt.length)) else p + 8) σ k)
  run_nt : Jumps sem (notTakenFrom patch b) nt (launch + 8) ∅
  run_tk : Jumps sem (takenFrom patch b (4 * nt.length)) tk (b.destination launch) ∅

theorem intRegs_emptyset : intRegs .emptyset = ∅ := by
  ext r
  simp [intRegs]

theorem notTakenFrom_aligned (h : patch.toNat % 4 = 0) : (notTakenFrom patch b).toNat % 4 = 0 :=
  add_aligned (add_aligned h (by decide)) (delayBytes_mod b)

theorem numBytes_untaken (delay : Word) {head : List Slot} (nt : List Word)
    (hhead : numBytes head = 8) :
    numBytes (head ++ (if b.annul then [] else [delaySlot delay]) ++ nt.map newSlot ++
      [delaySlot delay]) = 8 + delayBytes b + 4 * nt.length + 4 := by
  rw [numBytes_append, numBytes_append, numBytes_append, hhead, numBytes_untakenDelay,
    numBytes_map_newSlot]
  rfl

theorem emit_eq_ok (hb : b.Valid) (hpatch : patch.toNat % 4 = 0) (hlaunch : launch.toNat % 4 = 0)
    {slots : List Slot} (h : emit patch launch b delay = .ok slots) :
    Fits patch launch b ∧ numBytes slots ≤ conservativeNumInsnBytesForRAndR ∧
      Nonempty (Layout sem patch launch b delay slots) := by
  simp only [emit, bind_eq_ok, asserted_eq_ok, check_eq_some, numBytes_untakenDelay] at h
  obtain ⟨j₁, hj₁, head, hhead, -, -, nt, hnt, j₂, hj₂, tk, htk, -, hsize, hslots⟩ := h
  have hmult := delayBytes_mod b
  obtain ⟨hn₁, hlen₁, hrun₁⟩ := usualJump_of_generate sem (notTakenFrom_aligned hpatch)
    (add_aligned hlaunch (by decide)) hj₁ hnt
  have hle₁ := jumpNumBytes_le_24 hn₁
  have hdelay := delayBytes_le b
  rw [hlen₁] at hn₁ hhead
  obtain ⟨head', hhead', hlenHead, hrunHead⟩ := emitBranchAndNop_spec sem hb
    (show (8 + (delayBytes b + 4 * nt.length)) % 4 = 0 by omega) (by omega)
  obtain rfl : head = head' := Option.mem_unique hhead hhead'
  rw [numBytes_untaken delay nt hlenHead] at hj₂
  obtain ⟨hn₂, -, hrun₂⟩ := usualJump_of_generate sem
    (add_aligned hpatch (by omega)) (destination_aligned hb hlaunch) hj₂ htk
  obtain rfl := Except.ok.inj hslots
  rw [intRegs_emptyset] at hrun₁ hrun₂
  exact ⟨⟨_, _, hn₁, hn₂⟩, hsize, ⟨⟨head, nt, tk, rfl, hlenHead, hrunHead, hrun₁, hrun₂⟩⟩⟩

/-- Code that can be built also fits, since each jump keeps to its bound. -/
theorem exists_emit (delay : Word) (hb : b.Valid) (hpatch : patch.toNat % 4 = 0)
    (hlaunch : launch.toNat % 4 = 0) (h : Fits patch launch b) :
    ∃ slots, emit patch launch b delay = .ok slots := by
  obtain ⟨n₁, n₂, hn₁, hn₂⟩ := h
  have hle₁ := jumpNumBytes_le_24 hn₁
  have hle₂ := jumpNumBytes_le_24 hn₂
  have hmult := delayBytes_mod b
  have hdelay := delayBytes_le b
  obtain ⟨j₁, nt, hj₁, hnt, hnum₁, hlen₁⟩ := usualJump_of_size (notTakenFrom_aligned hpatch)
    (add_aligned hlaunch (by decide)) hn₁
  obtain ⟨head, hhead, hlenHead, -⟩ := emitBranchAndNop_spec idleSem hb
    (show (8 + (delayBytes b + n₁)) % 4 = 0 by omega) (by omega)
  have hemitted := numBytes_untaken (b := b) delay nt hlenHead
  rw [hlen₁] at hemitted
  have hstart : patch + ofNat 64 (numBytes (head ++ (if b.annul then [] else [delaySlot delay]))) =
      patch + 8 + ofNat 64 (delayBytes b) := by
    rw [numBytes_append, hlenHead, numBytes_untakenDelay, ofNat_add, ← add_assoc]
    rfl
  obtain ⟨j₂, tk, hj₂, htk, -, hlen₂⟩ := usualJump_of_size
    (add_aligned hpatch (by omega)) (destination_aligned hb hlaunch) hn₂
  rw [← hemitted] at hj₂
  apply Exists.intro
  simp only [emit, bind_eq_ok, asserted_eq_ok, check_eq_some, numBytes_untakenDelay]
  refine ⟨j₁, hj₁, head, hnum₁ ▸ hhead, (), hstart, nt, hnt, j₂, hj₂, tk, htk, (), ?_, rfl⟩
  rw [numBytes_append, hemitted, numBytes_map_newSlot, hlen₂, conservativeNumInsnBytesForRAndR,
    UsualJump.maxNumInsnBytesNoFreeRegsNoOpenDS]
  omega

section Running

variable {sem : Sem ρ} {slots : List Slot} {code : Code}
  (l : Layout sem patch launch b delay slots) (hcode : Holds code patch slots)
include l hcode

theorem Layout.holds_tail :
    Holds code patch l.head ∧ Holds code (patch + 8) (if b.annul then [] else [delaySlot delay]) ∧
      Holds code (notTakenFrom patch b) (l.nt.map newSlot) ∧
      Holds code (patch + BitVec.ofNat 64 (8 + (delayBytes b + 4 * l.nt.length)))
        (delaySlot delay :: l.tk.map newSlot) := by
  have heq := l.eq
  rw [heq] at hcode
  simp only [List.append_assoc] at hcode
  obtain ⟨hhead, hrest⟩ := hcode.append
  rw [← numBytes, l.numBytes_head] at hrest
  obtain ⟨hdelay, hrest⟩ := hrest.append
  rw [← numBytes, numBytes_untakenDelay] at hrest
  obtain ⟨hnt, htk⟩ := hrest.append
  rw [← numBytes, numBytes_map_newSlot, add_assoc, ← ofNat_add, add_assoc,
    ← ofNat_add, List.singleton_append] at htk
  exact ⟨hhead, hdelay, hnt, htk⟩

variable (hplain : (decode delay).isPlain) {σ : Arch ρ}
include hplain

/-- The branch is not taken: the delay-slot instruction if the annul bit is not set, and the
jump back. -/
theorem Layout.run_untaken
    (huntaken : σ.holds b.kind.tested b.condition = false) :
    ∃ σ' pc, let out := b.outcome launch false
      Reaches sem code (seq patch σ 0) (seq out.1 σ' out.2) ∧
        RunsDelay sem delay pc ∅ out.2 σ σ' ∧
        (out.2 ≠ 0 → code pc = some (delaySlot delay)) := by
  obtain ⟨hhead, hdelay, hnt, -⟩ := l.holds_tail hcode
  have hrun := l.run_head code patch σ 0 hhead
  rw [huntaken] at hrun
  cases hannul : b.annul with
  | true =>
    have hfrom : notTakenFrom patch b = patch + 8 := by
      simp [notTakenFrom, delayBytes, hannul]
    obtain ⟨σ', hback, hsame⟩ := l.run_nt code σ 0 hnt
    rw [hfrom] at hback
    refine ⟨σ', patch, ?_⟩
    simp only [Branch.outcome, hannul, Bool.false_eq_true, if_false, if_true]
    exact ⟨Reaches.trans hrun hback, hsame, fun h => absurd rfl h⟩
  | false =>
    have hfrom : notTakenFrom patch b = patch + 8 + 4 := by
      simp [notTakenFrom, delayBytes, hannul]
    simp only [hannul, Bool.false_eq_true, if_false] at hdelay
    have hstep : step sem code (seq (patch + 8) σ 0) =
        some (seq (patch + 8 + 4) (exec sem delay (patch + 8) σ) 1) :=
      step_plain hdelay.head hplain
    obtain ⟨σ', hback, hsame⟩ := l.run_nt code (exec sem delay (patch + 8) σ) 1 hnt
    rw [hfrom] at hback
    refine ⟨σ', patch + 8, ?_⟩
    simp only [Branch.outcome, hannul, Bool.false_eq_true, if_false]
    exact ⟨Reaches.trans (hrun.tail hstep) hback, ⟨σ, SameExcept.refl _ _, hsame⟩,
      fun _ => hdelay.head⟩

/-- The branch is taken: the delay-slot instruction and the jump to the destination. -/
theorem Layout.run_taken (htaken : σ.holds b.kind.tested b.condition = true) :
    ∃ σ' pc, Reaches sem code (seq patch σ 0) (seq (b.destination launch) σ' 1) ∧
      RunsDelay sem delay pc ∅ 1 σ σ' ∧ code pc = some (delaySlot delay) := by
  obtain ⟨hhead, -, -, htk⟩ := l.holds_tail hcode
  have hrun := l.run_head code patch σ 0 hhead
  rw [htaken, if_pos rfl] at hrun
  set q := patch + ofNat 64 (8 + (delayBytes b + 4 * l.nt.length)) with hq
  have hnext : takenFrom patch b (4 * l.nt.length) = q + 4 := by
    rw [takenFrom, ofNat_add, ← add_assoc, hq, Nat.add_assoc]
    rfl
  have hstep : step sem code (seq q σ 0) = some (seq (q + 4) (exec sem delay q σ) 1) :=
    step_plain htk.head hplain
  have hjump := l.run_tk
  rw [hnext] at hjump
  obtain ⟨σ', hthere, hsame⟩ := hjump code (exec sem delay q σ) 1 htk.tail
  exact ⟨σ', q, Reaches.trans (hrun.tail hstep) hthere, ⟨σ, SameExcept.refl _ _, hsame⟩, htk.head⟩

end Running

/-- **Whatever is emitted relocates the branch.** -/
theorem Layout.relocates {sem : Sem ρ} {slots : List Slot}
    (l : Layout sem patch launch b delay slots) (hsize : 4 * slots.length < 2 ^ 64)
    (hplain : (decode delay).isPlain) : RelocatesBranch sem patch slots launch b delay ∅ := by
  intro σ
  have hcode := holds_blockCode patch hsize
  cases htaken : σ.holds b.kind.tested b.condition with
  | false => exact l.run_untaken hcode hplain htaken
  | true =>
    obtain ⟨σ', pc, hrun, hdelay, hat⟩ := l.run_taken hcode hplain htaken
    exact ⟨σ', pc, hrun, hdelay, fun _ => hat⟩

theorem preserves_iff_fits [Inhabited ρ] (hsem : OnlyRdPcReadsPc sem) (hb : b.Valid)
    (hreal : b.reallyConditional) (hplain : (decode delay).isPlain)
    (hpatch : patch.toNat % 4 = 0) (hlaunch : launch.toNat % 4 = 0)
    (hfresh : SeesPc delay ∅ → b.IsFresh patch launch conservativeNumInsnBytesForRAndR) :
    (∃ slots, emit patch launch b delay = .ok slots ∧
      numBytes slots ≤ conservativeNumInsnBytesForRAndR ∧
      PreservesBranch sem patch slots launch b delay ∅) ↔
    Fits patch launch b ∧ (¬ SeesPc delay ∅ ∨ b.neverRunsDelay = true) := by
  have hrelocates : ∀ slots, emit patch launch b delay = .ok slots →
      (PreservesBranch sem patch slots launch b delay ∅ ↔
        ¬ SeesPc delay ∅ ∨ b.neverRunsDelay = true) := by
    intro slots hemit
    obtain ⟨-, hsize, ⟨l⟩⟩ := emit_eq_ok sem hb hpatch hlaunch hemit
    have hbound : 4 * slots.length ≤ 64 := hsize
    exact (l.relocates (by omega) hplain).preserves_iff hsem hb hreal fun h => (hfresh h).mono hsize
  constructor
  · rintro ⟨slots, hemit, -, hpreserves⟩
    exact ⟨(emit_eq_ok sem hb hpatch hlaunch hemit).1, (hrelocates slots hemit).mp hpreserves⟩
  · rintro ⟨hfits, hunseen⟩
    obtain ⟨slots, hemit⟩ := exists_emit delay hb hpatch hlaunch hfits
    exact ⟨slots, hemit, (emit_eq_ok sem hb hpatch hlaunch hemit).2.1,
      (hrelocates slots hemit).mpr hunseen⟩

end CondBranch0FreeAfter

/-! ## Which jumps without a register there are -/

section Below

variable {f t : Kptr}

theorem exists_jumpNumBytes_emptyset_iff (hf : f.toNat + 4 < 2 ^ 43) (hf4 : f.toNat % 4 = 0)
    (ht4 : t.toNat % 4 = 0) :
    (∃ n, jumpNumBytes f t .emptyset false = some n) ↔
      t.toNat < 2 ^ 44 ∧ f.toNat ≠ t.toNat + 2 ^ 31 := by
  have ho7 : SparcRegSet.emptyset.mem (.int Reg.o7) = false := by simp
  rw [exists_jumpNumBytes_iff hf hf4 ht4]
  exact ⟨fun h => ⟨h.target, h.call rfl ho7⟩,
    fun ⟨ht, hne⟩ => ⟨ht, (fun h => nomatch h), fun _ _ => hne⟩⟩

end Below

namespace CondBranch0FreeAfter

variable {patch launch : Kptr} {b : Branch}

/-- No jump goes exactly 2 GB backwards, and the destination is not below zero. -/
def InReachOfPatch (patch launch : Kptr) (b : Branch) : Prop :=
  (notTakenFrom patch b).toNat ≠ (launch + 8).toNat + 2 ^ 31 ∧
    0 ≤ (launch.toNat : Int) + b.offsetNBytes ∧
    ∀ n₁, jumpNumBytes (notTakenFrom patch b) (launch + 8) .emptyset false = some n₁ →
      ((takenFrom patch b n₁).toNat : Int) ≠ launch.toNat + b.offsetNBytes + 2 ^ 31

/-- **The jumps can be built** for addresses below 4 GB exactly if they reach. -/
theorem fits_iff (hb : b.Valid) (hpatch : patch.toNat < 2 ^ 32) (hlaunch : launch.toNat < 2 ^ 32)
    (hpatch4 : patch.toNat % 4 = 0) (hlaunch4 : launch.toNat % 4 = 0) :
    Fits patch launch b ↔ InReachOfPatch patch launch b := by
  have hmult := delayBytes_mod b
  have hdelay := delayBytes_le b
  have hfrom4 := notTakenFrom_aligned (b := b) hpatch4
  have hto4 : (launch + 8).toNat % 4 = 0 := add_aligned hlaunch4 (by decide)
  have hdest4 := destination_aligned hb hlaunch4
  have hfrom : (notTakenFrom patch b).toNat + 4 < 2 ^ 43 := by
    rw [notTakenFrom, toNat_add, toNat_ofNat]
    bv_omega
  have hto : (launch + 8).toNat < 2 ^ 44 := by bv_omega
  -- the second jump stands after the first, whose size is at most 24 bytes
  have hsecond : ∀ n₁, jumpNumBytes (notTakenFrom patch b) (launch + 8) .emptyset false = some n₁ →
      ((∃ n₂, jumpNumBytes (takenFrom patch b n₁) (b.destination launch) .emptyset false =
        some n₂) ↔
        0 ≤ (launch.toNat : Int) + b.offsetNBytes ∧
          ((takenFrom patch b n₁).toNat : Int) ≠ launch.toNat + b.offsetNBytes + 2 ^ 31) := by
    intro n₁ hn₁
    have hle := jumpNumBytes_le_24 hn₁
    obtain ⟨-, ws, -, -, -, hlen⟩ := usualJump_of_size hfrom4 hto4 hn₁
    have htaken4 : (takenFrom patch b n₁).toNat % 4 = 0 := add_aligned hpatch4 (by omega)
    have htaken : (takenFrom patch b n₁).toNat + 4 < 2 ^ 43 := by
      rw [takenFrom, toNat_add, toNat_ofNat]
      omega
    rw [exists_jumpNumBytes_emptyset_iff htaken htaken4 hdest4, destination_lt_iff hb hlaunch]
    refine and_congr_right fun hpos => ?_
    have := destination_toNat hb hlaunch hpos
    omega
  constructor
  · rintro ⟨n₁, n₂, hn₁, hn₂⟩
    obtain ⟨hpos, -⟩ := (hsecond n₁ hn₁).mp ⟨n₂, hn₂⟩
    refine ⟨((exists_jumpNumBytes_emptyset_iff hfrom hfrom4 hto4).mp ⟨n₁, hn₁⟩).2, hpos, ?_⟩
    intro m hm
    obtain rfl : n₁ = m := Option.mem_unique hn₁ hm
    exact ((hsecond n₁ hn₁).mp ⟨n₂, hn₂⟩).2
  · rintro ⟨hne, hpos, hne'⟩
    obtain ⟨n₁, hn₁⟩ := (exists_jumpNumBytes_emptyset_iff hfrom hfrom4 hto4).mpr ⟨hto, hne⟩
    obtain ⟨n₂, hn₂⟩ := (hsecond n₁ hn₁).mpr ⟨hpos, hne' n₁ hn₁⟩
    exact ⟨n₁, n₂, hn₁, hn₂⟩

end CondBranch0FreeAfter

end Kerninst
