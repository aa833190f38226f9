import Kerninst.Sparc.UsualJump

/-!
# What usualJump guarantees

Each of the nine shapes of a jump has a lemma that says when it works. `jumpNumBytes` is how many
bytes the jump takes, from the distance alone; the source builds a jump exactly when there is one,
and then it works (`allocateAppropriate_agrees`).

The main result is `usualJump_preserves_registers_iff`: for addresses below 4 GB all is
well in all cases but one. The two shapes that put the call four bytes after the start of
the jump check the range at the start of the jump, so a target exactly 2 GB below it is
accepted, and then fails the assertion in `callandlink`.
-/

namespace Kerninst

open UsualJump List Option SparcInstr Reg SameExcept
open Cpu (seq)

universe u

variable {ρ : Type u} (sem : Sem ρ)

/-- The jump takes `n` bytes, and leads from `f` to `t` with only registers of `F` changed. -/
def UsualJump.Works (j : UsualJump) (f t : Kptr) (F : Set Reg) (leaveDelaySlotOpen : Bool)
    (n : Nat) : Prop :=
  ∃ ws, j.generate = some ws ∧ 4 * ws.length = n ∧ j.numInsnBytes = n ∧
    if leaveDelaySlotOpen then JumpsOpen sem f ws t F else Jumps sem f ws t F

variable {j : UsualJump} {n : Nat}

theorem UsualJump.Works.mono {sem : Sem ρ} {f t : Kptr} {F G : Set Reg}
    {isOpen : Bool} (h : j.Works sem f t F isOpen n) (hFG : F ⊆ G) :
    j.Works sem f t G isOpen n := by
  obtain ⟨ws, hws, hlen, hnum, hjump⟩ := h
  refine ⟨ws, hws, hlen, hnum, ?_⟩
  cases isOpen with
  | true => exact JumpsOpen.mono hjump hFG
  | false => exact Jumps.mono hjump hFG

variable {F : Set Reg}

/-! ## Direct jumps -/

section Direct

variable {f t : Kptr}

theorem testIcc_always (cc : CondCodes) : testIcc always cc = true := by
  simp [testIcc, always]

theorem baDisplacement_eq (h : InReach 24 f t) :
    baDisplacement f t = (t.toNat : Int) - f.toNat := by
  obtain ⟨h₁, h₂⟩ := h
  rw [baDisplacement, BitVec.toInt_eq_toNat_cond, BitVec.toNat_sub,
    BitVec.toNat_setWidth, BitVec.toNat_setWidth]
  split <;> omega

/-- The branch that both forms of `ba` emit. -/
theorem ba_spec (h : InReach 24 f t) (hf : f.toNat % 4 = 0) (ht : t.toNat % 4 = 0) (annul : Bool) :
    ∃ w disp, bicc always annul (baDisplacement f t) = some w ∧
      decode w = .branch ⟨.bicc, always, annul, disp⟩ ∧
      f + BitVec.ofInt 64 disp = t := by
  have hdisp := toInt_sub_of_inReach (by decide) h
  rw [baDisplacement_eq h]
  obtain ⟨h₁, h₂⟩ := h
  obtain ⟨w, hw, hd⟩ := bicc_spec annul (by decide : always < 16)
    (show Encodable 22 ((t.toNat : Int) - f.toNat) by unfold Encodable; omega)
  refine ⟨w, _, hw, hd, ?_⟩
  rw [← hdisp, add_ofInt_sub]

theorem ba_works (h : InReach 24 f t) (hf : f.toNat % 4 = 0) (ht : t.toNat % 4 = 0)
    (isOpen : Bool) : (if isOpen then ba f t else baA f t).Works sem f t ∅ isOpen 4 := by
  obtain ⟨w, disp, hw, hd, htarget⟩ := ba_spec h hf ht !isOpen
  have halways : ∀ annul, Branch.isAlways ⟨.bicc, always, annul, disp⟩ = true := fun _ => rfl
  cases isOpen with
  | true | false =>
    simp only [Bool.not_true, Bool.not_false] at hw
    refine ⟨[w], by simp [generate, hw], rfl, rfl, fun code σ k hcode => ?_⟩
    refine ⟨σ, Reaches.single (step_branch hcode.head hd ?_), refl _ _⟩
    simp [branchTo, BranchKind.tested, Arch.holds, testIcc_always, htarget, halways]

/-- A call, as a jump that overwrites `%o7`. -/
theorem jumpsOpen_callandlink (hrange : inRangeOfCall f t = some true) (hf : f.toNat % 4 = 0)
    (ht : t.toNat % 4 = 0) :
    ∃ w, callandlink t f = some w ∧ JumpsOpen sem f [w] t {o7} := by
  obtain ⟨w, disp, hw, hd, htarget⟩ := callandlink_spec hrange ht hf
  refine ⟨w, hw, fun code σ k hcode => ?_⟩
  exact ⟨_, Reaches.single (step_call hcode.head hd htarget), write (Set.mem_singleton _) _⟩

theorem exec_nop {w : Word} (hd : decode w = .sethi g0 0) (pc : Kptr) (σ : Arch ρ) :
    exec sem w pc σ = σ := by
  simp [exec, hd, Arch.write]

/-- Filling the last delay slot with a `nop`. -/
theorem JumpsOpen.close_nop {ws : List Word} (h : JumpsOpen sem f ws t F) :
    ∃ nop, SparcInstr.nop = some nop ∧ isSave nop = false ∧ Jumps sem f (ws ++ [nop]) t F := by
  obtain ⟨nop, hnop, hd⟩ := nop_spec
  refine ⟨nop, hnop, by simp [isSave, hd], h.close (by rw [hd]; rfl) fun pc σ => ?_⟩
  rw [exec_nop sem hd]
  exact refl _ _

theorem call_works (hrange : inRangeOfCall f t = some true) (hf : f.toNat % 4 = 0)
    (ht : t.toNat % 4 = 0) : (call f t).Works sem f t {o7} true 4 := by
  obtain ⟨w, hw, hjump⟩ := jumpsOpen_callandlink sem hrange hf ht
  exact ⟨[w], by simp only [generate, hw]; rfl, rfl, rfl, hjump⟩

theorem callNop_works (hrange : inRangeOfCall f t = some true) (hf : f.toNat % 4 = 0)
    (ht : t.toNat % 4 = 0) : (callNop f t).Works sem f t {Reg.o7} false 8 := by
  obtain ⟨w, hw, hjump⟩ := jumpsOpen_callandlink sem hrange hf ht
  obtain ⟨nop, hnop, -, hclosed⟩ := hjump.close_nop
  exact ⟨[w, nop], by simp only [generate, hw, hnop]; rfl, rfl, rfl, hclosed⟩

end Direct

variable {free : Reg}

/-! ## Calls that put back what they overwrite -/

section Saving

variable {f t : Kptr}

theorem line_mov (rs1 rd : Reg) : ∃ w, mov rs1 rd = some w ∧ (decode w).isPlain ∧
      ∀ pc σ, exec sem w pc σ = σ.write rd (σ.read rs1) := by
  obtain ⟨w, hw, hd⟩ := mov_spec rs1 rd
  refine ⟨w, hw, by rw [hd]; rfl, fun pc σ => ?_⟩
  simp [exec, hd, Arch.operand, Arch.read]

/-- A register that has its old value again does not count as changed. -/
theorem SameExcept.restored {r : Reg} {σ σ' : Arch ρ}
    (h : SameExcept (insert r F) σ σ') (hr : σ'.read r = σ.read r) : SameExcept F σ σ' := by
  refine { h with read := fun r' hr' => ?_ }
  rcases eq_or_ne r' r with rfl | hne
  · exact hr
  · exact h.read r' (by simp [hne, hr'])

/-- `mov %o7, free; call; mov free, %o7`. The call is four bytes after the start. -/
theorem moveCallMove_works (hg0 : free ≠ g0) (ho7 : free ≠ o7)
    (hrange : inRangeOfCall (f + 4) t = some true) (hf : (f + 4).toNat % 4 = 0)
    (ht : t.toNat % 4 = 0) :
    (moveCallMove f t free).Works sem f t {free} false 12 := by
  obtain ⟨i₁, hi₁, hplain₁, hexec₁⟩ := line_mov sem o7 free
  obtain ⟨i₂, disp, hi₂, hd₂, htarget⟩ := callandlink_spec hrange ht hf
  obtain ⟨i₃, hi₃, hplain₃, hexec₃⟩ := line_mov sem free o7
  refine ⟨[i₁, i₂, i₃], by simp only [generate, hi₁, hi₂, hi₃]; rfl, rfl, rfl,
    fun code σ k hcode => ?_⟩
  set σ₁ := σ.write free (σ.read o7) with hσ₁
  set σ₂ := σ₁.write o7 (f + 4) with hσ₂
  set σ₃ := σ₂.write o7 (σ₂.read free) with hσ₃
  have hstep₁ : step sem code (seq f σ k) = some (seq (f + 4) σ₁ k) := by
    have : step sem code (seq f σ k) = some (seq (f + 4) (exec sem i₁ f σ) k) :=
      step_plain hcode.head hplain₁
    rwa [hexec₁] at this
  have hstep₂ : step sem code (seq (f + 4) σ₁ k) = some ⟨f + 4 + 4, t, σ₂, k⟩ :=
    step_call hcode.tail.head hd₂ htarget
  have hstep₃ : step sem code ⟨f + 4 + 4, t, σ₂, k⟩ = some (seq t σ₃ k) := by
    have : step sem code ⟨f + 4 + 4, t, σ₂, k⟩ = some (seq t (exec sem i₃ (f + 4 + 4) σ₂) k) :=
      step_plain hcode.tail.tail.head hplain₃
    rwa [hexec₃] at this
  refine ⟨σ₃, ((Reaches.single hstep₁).tail hstep₂).tail hstep₃, restored (r := o7) ?_ ?_⟩
  · have hfree : free ∈ (insert o7 {free} : Set Reg) := by simp
    have hlink : o7 ∈ (insert o7 {free} : Set Reg) := by simp
    exact ((write hfree _).trans (write hlink _)).trans (write hlink _)
  · rw [hσ₃, Arch.read_write_self _ (by decide), hσ₂, Arch.read_write_of_ne _ ho7, hσ₁,
      Arch.read_write_self _ hg0]

/-- **A jump in a scratch window** between a `save` and a `restore` changes no register. -/
theorem JumpsOpen.in_window {ws : List Word} (hF : F ⊆ freshRegs)
    (h : JumpsOpen sem (f + 4) ws t F) {frame : Int} (hlo : -2 ^ 12 ≤ frame)
    (hhi : frame < 2 ^ 12) :
    ∃ save restore, SparcInstr.save frame = some save ∧ SparcInstr.restore = some restore ∧
      isSave save = true ∧ isSave restore = false ∧
      Jumps sem f ([save] ++ ws ++ [restore]) t ∅ := by
  obtain ⟨save, hsave, hds⟩ := save_spec hlo hhi
  obtain ⟨restore, hrestore, hdr⟩ := restore_spec
  refine ⟨save, restore, hsave, hrestore, by simp [isSave, hds], by simp [isSave, hdr],
    fun code σ k hcode => ?_⟩
  rw [append_assoc, map_append, map_append] at hcode
  set σ₁ := exec sem save f σ with hσ₁
  have hstep₁ : step sem code (seq f σ k) = some (seq (f + 4) σ₁ k) :=
    step_plain hcode.append.1.head (congrArg Insn.isPlain hds)
  have hwindow : SameExcept freshRegs { σ with cwp := σ.cwp + 1 } σ₁ := by
    simp only [hσ₁, exec, hds]
    exact write (show 8 ≤ sp.val ∧ sp.val < 24 by decide) _
  obtain ⟨σ₂, hsame, hrun⟩ := h.run_slot hcode.append.2 (congrArg Insn.isPlain hdr) σ₁ k
  refine ⟨_, Reaches.head hstep₁ hrun, ?_⟩
  have hexec : ∀ pc, exec sem restore pc σ₂ = { σ₂ with cwp := σ₂.cwp - 1 } := by
    intro pc
    simp [exec, hdr, Arch.write]
  rw [show (newSlot restore).word = restore from rfl, hexec]
  exact (hwindow.trans (hsame.mono hF)).of_scratch_window

theorem saveCallRestore_works (hrange : inRangeOfCall (f + 4) t = some true)
    (hf : (f + 4).toNat % 4 = 0) (ht : t.toNat % 4 = 0) :
    (saveCallRestore f t).Works sem f t ∅ false 12 := by
  obtain ⟨w, hw, hjump⟩ := jumpsOpen_callandlink sem hrange hf ht
  obtain ⟨save, restore, hsave, hrestore, -, -, hclosed⟩ := hjump.in_window sem
    (Set.singleton_subset_iff.mpr ⟨by decide, by decide⟩)
    (by decide : -2 ^ 12 ≤ -minFrameAlignedNumBytes) (by decide)
  refine ⟨[save] ++ [w] ++ [restore], ?_, rfl, rfl, hclosed⟩
  simp only [generate, hsave, hw, hrestore]
  rfl

end Saving

/-! ## Indirect jumps -/

section Far

variable {f t : Kptr}

/-- Emitting a far jump replaces its `save` and nothing else. -/
theorem mapM_not_save {iv : List Word} (h : ∀ w ∈ iv, isSave w = false) (frame : Int) :
    (iv.mapM fun w => if isSave w then save frame else some w) = some iv := by
  induction iv with
  | nil => rfl
  | cons w iv ih =>
    have hw : isSave w = false := h w (by simp)
    simp [hw, ih fun v hv => h v (by simp [hv])]

/-- The bytes of an indirect jump, up to its delay slot. -/
def farNumBytes (t : Kptr) : Nat := 4 * (immAddrLen (t &&& ~~~0xFFF#64) + 1)

theorem genaddrJmp_works (hfree : free ≠ g0) (h44 : t.toNat < 2 ^ 44) (ht : t.toNat % 4 = 0) :
    ∃ j, genaddrJmp f t free = some j ∧ j.Works sem f t {free} true (farNumBytes t) := by
  obtain ⟨ws, hws, hlen, hs, hjump⟩ := genJumpAndLink_spec sem hfree h44 ht
  refine ⟨.farJump f t ws, by simp only [genaddrJmp, hws]; rfl, ws, mapM_not_save hs _,
    ?_, ?_, hjump f⟩
  · rw [hlen, farNumBytes]
  · rw [numInsnBytes, hlen, farNumBytes, Nat.mul_comm]

theorem genaddrJmpNop_works (hfree : free ≠ Reg.g0) (h44 : t.toNat < 2 ^ 44)
    (ht : t.toNat % 4 = 0) :
    ∃ j, genaddrJmpNop f t free = some j ∧ j.Works sem f t {free} false (farNumBytes t + 4) := by
  obtain ⟨ws, hws, hlen, hs, hjump⟩ := genJumpAndLink_spec sem hfree h44 ht
  obtain ⟨nop, hnop, hs', hclosed⟩ := (hjump f).close_nop
  refine ⟨.farJump f t (ws ++ [nop]), by simp only [genaddrJmpNop, hws, hnop]; rfl,
    ws ++ [nop], mapM_not_save (by simpa [or_imp, forall_and, hs'] using hs) _, ?_, ?_, hclosed⟩
  · rw [length_append, hlen, farNumBytes, Nat.mul_add]
    rfl
  · rw [numInsnBytes, length_append, hlen, farNumBytes, Nat.mul_comm, Nat.mul_add]
    rfl

theorem saveGenaddrJmpRestore_works (h44 : t.toNat < 2 ^ 44) (ht : t.toNat % 4 = 0) :
    ∃ j, saveGenaddrJmpRestore f t = some j ∧ j.Works sem f t ∅ false (farNumBytes t + 8) := by
  obtain ⟨ws, hws, hlen, hs, hjump⟩ := genJumpAndLink_spec sem (by decide : l0 ≠ g0) h44 ht
  obtain ⟨dummy, hdummy, hdecode⟩ :=
    save_spec (by decide : -2 ^ 12 ≤ (-0x60 : Int)) (by decide)
  have hsave₀ : isSave dummy = true := by simp [isSave, hdecode]
  obtain ⟨save, restore, hsave, hrestore, -, hs', hclosed⟩ := (hjump (f + 4)).in_window sem
    (Set.singleton_subset_iff.mpr ⟨by decide, by decide⟩)
    (by decide : -2 ^ 12 ≤ -minFrameAlignedNumBytes) (by decide)
  have hlength : (ws ++ [restore]).length = immAddrLen (t &&& ~~~0xFFF#64) + 2 := by
    rw [length_append, hlen]
    rfl
  refine ⟨.farJump f t ([dummy] ++ ws ++ [restore]), ?_, [save] ++ ws ++ [restore], ?_, ?_, ?_,
    hclosed⟩
  · simp only [saveGenaddrJmpRestore, hdummy, hws, hrestore]
    rfl
  · have hrest : ∀ w ∈ ws ++ [restore], isSave w = false := by
      simpa [or_imp, forall_and, hs'] using hs
    rw [append_assoc, append_assoc, generate, singleton_append,
      mapM_cons, mapM_not_save hrest, hsave₀, if_pos rfl, hsave]
    rfl
  · rw [append_assoc, singleton_append, length_cons, hlength, farNumBytes]
    omega
  · rw [numInsnBytes, append_assoc, singleton_append, length_cons, hlength, farNumBytes]
    omega

theorem genJumpAndLink_fits {link : Reg} {ws : List Word} (h : genJumpAndLink t link = some ws) :
    t.toNat < 2 ^ 44 := by
  have hhi := toNat_and_not_mask t
  simp only [genJumpAndLink, do_eq_some] at h
  obtain ⟨-, -, ws', hload, -⟩ := h
  have := genImmAddr_fits hload
  omega

theorem callandlink_inRange {w : Word} (h : callandlink t f = some w) :
    inRangeOfCall f t = some true := by
  simp only [callandlink, do_eq_some, check_eq_some] at h
  obtain ⟨ok, hok, -, rfl, -⟩ := h
  exact hok

end Far

/-! ## Choosing a jump -/

/-- The registers of a set, as numbers. -/
def intRegs (s : SparcRegSet) : Set Reg := {r | s.mem (.int r) = true}

theorem beginIntregsAfterG0_eq_none {s : SparcRegSet} :
    beginIntregsAfterG0 s = none ↔ ∀ r ≠ g0, s.mem (.int r) = false := by
  simp [beginIntregsAfterG0]

/-- The bytes of an indirect jump with `fill` bytes around it. -/
def farJumpBytes (t : Kptr) (fill : Nat) : Option Nat :=
  if t.toNat < 2 ^ 44 then some (farNumBytes t + fill) else none

/-- The bytes of a jump that saves a register around a call, which stands at the second
instruction, or else of an indirect jump. -/
def callJumpBytes (f t : Kptr) (fill : Nat) : Option Nat :=
  (inRangeOfCall f t).bind fun inCall =>
  if inCall then if inRangeOfCall (f + 4) t = some true then some 12 else none
  else farJumpBytes t fill

def scratchJumpBytes (f t : Kptr) (avail : SparcRegSet) (isOpen : Bool) : Option Nat :=
  match beginIntregsAfterG0 avail, isOpen with
  | none, true => none
  | none, false => callJumpBytes f t 8
  | some _, true => farJumpBytes t 0
  | some _, false => callJumpBytes f t 4

/-- How many bytes the jump from `f` to `t` takes: `none` if no jump can be built, because
an assertion stops it or because there is no register for it. -/
def jumpNumBytes (f t : Kptr) (avail : SparcRegSet) (isOpen : Bool) : Option Nat :=
  (inRangeOfBicc f t).bind fun near =>
  if near then some 4 else
  (if avail.mem (.int Reg.o7) then inRangeOfCall f t else some false).bind fun viaO7 =>
  if viaO7 then some (if isOpen then 4 else 8) else scratchJumpBytes f t avail isOpen

section Choice

variable {f t : Kptr} {F : Set Reg} {isOpen : Bool}

/-- The source's choice `c` agrees with the size `n`: if there is a size there is a jump of
that size which works, and if there is none no code is generated. -/
def Agrees (f t : Kptr) (F : Set Reg) (isOpen : Bool) (c : Except JumpFailure UsualJump)
    (n : Option Nat) : Prop :=
  (∀ m, n = some m → ∃ j, c = .ok j ∧ j.Works sem f t F isOpen m) ∧
    (n = none → ∀ j, c = .ok j → j.generate = none)

theorem agrees_of_works {m : Nat} (h : j.Works sem f t F isOpen m) :
    Agrees sem f t F isOpen (.ok j) (some m) :=
  ⟨fun _ hm => ⟨j, rfl, some.inj hm ▸ h⟩, fun hn => (nomatch hn)⟩

theorem agrees_of_error (e : JumpFailure) : Agrees sem f t F isOpen (.error e) none :=
  ⟨fun _ hm => (nomatch hm), fun _ _ hj => (nomatch hj)⟩

theorem agrees_of_generate_none (h : j.generate = none) : Agrees sem f t F isOpen (.ok j) none := by
  refine ⟨fun _ hm => (nomatch hm), fun _ j' hj' => ?_⟩
  cases hj'
  exact h

/-- An indirect jump exists if the target has at most 44 bits. -/
theorem agrees_far {c : Option UsualJump} {fill : Nat}
    (hfits : t.toNat < 2 ^ 44 → ∃ j, c = some j ∧ j.Works sem f t F isOpen (farNumBytes t + fill))
    (hfails : ¬ t.toNat < 2 ^ 44 → c = none) :
    Agrees sem f t F isOpen (asserted c) (farJumpBytes t fill) := by
  rcases lt_or_ge t.toNat (2 ^ 44) with h | h
  · obtain ⟨j, rfl, hj⟩ := hfits h
    rw [farJumpBytes, if_pos h]
    exact agrees_of_works sem hj
  · rw [farJumpBytes, if_neg (by omega), hfails (by omega)]
    exact agrees_of_error sem _

/-- A call at the second instruction exists if it is in range there, too. -/
theorem agrees_call {c : Except JumpFailure UsualJump} {fill : Nat}
    (hworks : inRangeOfCall f t = some true → inRangeOfCall (f + 4) t = some true →
      j.Works sem f t F isOpen 12)
    (hfails : inRangeOfCall (f + 4) t ≠ some true → j.generate = none)
    (hfar : Agrees sem f t F isOpen c (farJumpBytes t fill)) :
    Agrees sem f t F isOpen
      ((asserted (inRangeOfCall f t)).bind fun inCall => if inCall then .ok j else c)
      (callJumpBytes f t fill) := by
  rw [callJumpBytes]
  rcases hcall : inRangeOfCall f t with _ | _ | _
  · exact agrees_of_error sem _
  · exact hfar
  · rcases Classical.em (inRangeOfCall (f + 4) t = some true) with h | h
    · simp only [bind_some, if_true, if_pos h]
      exact agrees_of_works sem (hworks hcall h)
    · simp only [bind_some, if_true, if_neg h]
      exact agrees_of_generate_none sem (hfails h)

theorem callandlink_eq_none (h : inRangeOfCall f t ≠ some true) : callandlink t f = none :=
  eq_none_iff_forall_ne_some.mpr fun _ hw => h (callandlink_inRange hw)

theorem generate_moveCallMove_eq_none (h : inRangeOfCall (f + 4) t ≠ some true) :
    (moveCallMove f t free).generate = none := by
  obtain ⟨i₁, hi₁, -⟩ := mov_spec o7 free
  simp only [generate, hi₁, callandlink_eq_none h]
  rfl

theorem generate_saveCallRestore_eq_none (h : inRangeOfCall (f + 4) t ≠ some true) :
    (saveCallRestore f t).generate = none := by
  obtain ⟨i₁, hi₁, -⟩ :=
    save_spec (by decide : -2 ^ 12 ≤ -minFrameAlignedNumBytes) (by decide)
  simp only [generate, hi₁, callandlink_eq_none h]
  rfl

theorem genJumpAndLink_eq_none (h : ¬ t.toNat < 2 ^ 44) (link : Reg) :
    genJumpAndLink t link = none :=
  eq_none_iff_forall_ne_some.mpr fun _ hws => h (genJumpAndLink_fits hws)

variable {avail : SparcRegSet}

theorem allocateScratch_agrees (hf : f.toNat % 4 = 0) (ht : t.toNat % 4 = 0)
    (ho7 : inRangeOfCall f t = some true → avail.mem (.int o7) = false) :
    Agrees sem f t (intRegs avail) isOpen (allocateScratch f t avail isOpen)
      (scratchJumpBytes f t avail isOpen) := by
  have hf' : (f + 4).toNat % 4 = 0 := by bv_omega
  simp only [allocateScratch, scratchJumpBytes]
  rcases hreg : beginIntregsAfterG0 avail with _ | free
  · cases isOpen with
    | true =>
      -- no register, and the delay slot cannot hold the `restore`
      rcases inRangeOfCall f t with _ | _ | _ <;> exact agrees_of_error sem _
    | false =>
      simp only [Bool.not_false, Bool.and_true, if_true]
      refine agrees_call sem (fun _ h => (saveCallRestore_works sem h hf' ht).mono ?_)
        generate_saveCallRestore_eq_none (agrees_far sem (fun h => ?_) fun h => ?_)
      · exact Set.empty_subset _
      · obtain ⟨j, hj, hworks⟩ := saveGenaddrJmpRestore_works sem h ht
        exact ⟨j, hj, hworks.mono (Set.empty_subset _)⟩
      · obtain ⟨i₁, hi₁, -⟩ := save_spec (by decide : -2 ^ 12 ≤ (-0x60 : Int)) (by decide)
        simp only [saveGenaddrJmpRestore, hi₁, genJumpAndLink_eq_none h]
        rfl
  · obtain ⟨hg0, hmem⟩ : free ≠ g0 ∧ free ∈ intRegs avail := by
      simpa [intRegs] using find?_some hreg
    have hsub : ({free} : Set Reg) ⊆ intRegs avail := Set.singleton_subset_iff.mpr hmem
    cases isOpen with
    | true =>
      refine agrees_far sem (fun h => ?_) fun h => ?_
      · obtain ⟨j, hj, hworks⟩ := genaddrJmp_works sem hg0 h ht
        exact ⟨j, hj, hworks.mono hsub⟩
      · simp only [genaddrJmp, genJumpAndLink_eq_none h]
        rfl
    | false =>
      simp only [Bool.false_eq_true, if_false, Bool.not_eq_true', ← Bool.not_eq_true, ite_not]
      refine agrees_call sem (fun hcall h => ?_) generate_moveCallMove_eq_none
        (agrees_far sem (fun h => ?_) fun h => ?_)
      · have hne : free ≠ o7 := by
          rintro rfl
          exact absurd hmem (by simp [intRegs, ho7 hcall])
        exact (moveCallMove_works sem hg0 hne h hf' ht).mono hsub
      · obtain ⟨j, hj, hworks⟩ := genaddrJmpNop_works sem hg0 h ht
        exact ⟨j, hj, hworks.mono hsub⟩
      · simp only [genaddrJmpNop, genJumpAndLink_eq_none h]
        rfl

/-- **The source builds a jump exactly when there is one, and the jump works.** -/
theorem allocateAppropriate_agrees (hf : f.toNat % 4 = 0) (ht : t.toNat % 4 = 0) :
    Agrees sem f t (intRegs avail) isOpen (allocateAppropriate f t avail isOpen)
      (jumpNumBytes f t avail isOpen) := by
  simp only [allocateAppropriate, jumpNumBytes]
  rcases hnear : inRangeOfBicc f t with _ | _ | _
  · exact agrees_of_error sem _
  · -- out of reach of `ba`: perhaps a call, if `%o7` is available
    rcases ho7 : avail.mem (.int o7) with _ | _
    · exact allocateScratch_agrees sem hf ht fun _ => ho7
    · have hsub : ({o7} : Set Reg) ⊆ intRegs avail := Set.singleton_subset_iff.mpr ho7
      rcases hcall : inRangeOfCall f t with _ | _ | _
      · exact agrees_of_error sem _
      · exact allocateScratch_agrees sem hf ht fun h => by simp [hcall] at h
      · cases isOpen with
        | true => exact agrees_of_works sem ((call_works sem hcall hf ht).mono hsub)
        | false => exact agrees_of_works sem ((callNop_works sem hcall hf ht).mono hsub)
  · have hreach : InReach 24 f t := inReach_of_inRangeOf (by decide) hnear
    have hworks := (ba_works sem hreach hf ht isOpen).mono (Set.empty_subset (intRegs avail))
    cases isOpen with
    | true | false => exact agrees_of_works sem hworks

end Choice

/-! ## Which jumps there are -/

section Existence

variable {f t : Kptr} {avail : SparcRegSet} {isOpen : Bool}

/-- A call in range of `f` is in range of the next instruction, unless its target is
exactly 2 GB below `f`. -/
theorem inRangeOfCall_next_iff (hf : f.toNat + 4 < 2 ^ 63) (hf4 : f.toNat % 4 = 0)
    (ht4 : t.toNat % 4 = 0) (h : inRangeOfCall f t = some true) :
    inRangeOfCall (f + 4) t = some true ↔ f.toNat ≠ t.toNat + 2 ^ 31 := by
  have hadd : (f + 4).toNat = f.toNat + 4 := by bv_omega
  obtain ⟨-, hok⟩ := (inRangeOf_eq_some (le_refl 32)).mp h
  refine (inRangeOf_eq_some (le_refl 32)).trans ?_
  simp only [InReach, hadd, true_iff] at hok ⊢
  omega

/-- Far below 2^63, the only things that can be missing are a register for an open jump,
and four bytes of range. -/
theorem exists_jumpNumBytes (hf : f.toNat + 4 < 2 ^ 63) (hf4 : f.toNat % 4 = 0)
    (ht : t.toNat < 2 ^ 44) (ht4 : t.toNat % 4 = 0)
    (hreg : isOpen = true → inRangeOfBicc f t = some true ∨ beginIntregsAfterG0 avail ≠ none)
    (hcall : isOpen = false → avail.mem (.int o7) = false → f.toNat ≠ t.toNat + 2 ^ 31) :
    ∃ n, jumpNumBytes f t avail isOpen = some n := by
  have hfar : ∀ fill, ∃ n, farJumpBytes t fill = some n := fun fill => ⟨_, if_pos ht⟩
  obtain ⟨near, hnear, -⟩ := inRangeOf_eq (by decide : 24 ≤ 32) (show f.toNat < 2 ^ 63 by omega) t
  obtain ⟨inCall, hinCall, -⟩ := inRangeOf_eq (le_refl 32) (show f.toNat < 2 ^ 63 by omega) t
  change inRangeOfBicc f t = some near at hnear
  change inRangeOfCall f t = some inCall at hinCall
  simp only [jumpNumBytes, hnear, hinCall, bind_some]
  cases near with
  | true => exact ⟨4, rfl⟩
  | false =>
    have hcalls : ∀ fill, f.toNat ≠ t.toNat + 2 ^ 31 ∨ inCall = false →
        ∃ n, callJumpBytes f t fill = some n := by
      intro fill h
      simp only [callJumpBytes, hinCall, bind_some]
      cases inCall with
      | false => exact hfar fill
      | true =>
        have hne : f.toNat ≠ t.toNat + 2 ^ 31 := h.resolve_right (by decide)
        exact ⟨12, by rw [if_pos rfl, if_pos ((inRangeOfCall_next_iff hf hf4 ht4 hinCall).mpr hne)]⟩
    -- what is left when `%o7` does not help
    have hscratch : (avail.mem (.int o7) = true → inCall = false) →
        ∃ n, scratchJumpBytes f t avail isOpen = some n := by
      intro ho7
      have hor : isOpen = false → f.toNat ≠ t.toNat + 2 ^ 31 ∨ inCall = false := by
        intro hopen
        cases hmem : avail.mem (.int o7) with
        | true => exact .inr (ho7 hmem)
        | false => exact .inl (hcall hopen hmem)
      simp only [scratchJumpBytes]
      cases isOpen with
      | false => cases beginIntregsAfterG0 avail <;> exact hcalls _ (hor rfl)
      | true =>
        cases hr : beginIntregsAfterG0 avail with
        | none => simp [hnear, hr] at hreg
        | some r => exact hfar 0
    cases hmem : avail.mem (.int o7) with
    | false => simpa [hmem] using hscratch
    | true =>
      cases inCall with
      | false => simpa using hscratch
      | true => exact ⟨_, rfl⟩

/-- From below 2^43, nothing reaches a target of more than 44 bits. -/
theorem jumpNumBytes_eq_none_of_large (hf : f.toNat < 2 ^ 43) (ht : 2 ^ 44 ≤ t.toNat) :
    jumpNumBytes f t avail isOpen = none := by
  have hout : ∀ n ≤ 32, inRangeOf f t n = some false := by
    intro n hn
    have hpow : 2 ^ (n - 1) ≤ 2 ^ 31 := Nat.pow_le_pow_right (by decide) (by omega)
    refine (inRangeOf_eq_some hn).mpr ⟨by omega, ?_⟩
    simp only [InReach, Bool.false_eq_true, false_iff]
    omega
  have hnear : inRangeOfBicc f t = some false := hout 24 (by decide)
  have hcall : inRangeOfCall f t = some false := hout 32 (le_refl _)
  have hfar : ∀ fill, farJumpBytes t fill = none := fun fill => if_neg (by omega)
  have hcalls : ∀ fill, callJumpBytes f t fill = none := fun fill => by
    simp [callJumpBytes, hcall, hfar]
  cases hr : beginIntregsAfterG0 avail <;> cases isOpen <;>
    simp [jumpNumBytes, scratchJumpBytes, hnear, hcall, hr, hfar, hcalls]

/-- The bound that the source publishes for a jump. -/
def maxNumInsnBytes (avail : SparcRegSet) (isOpen : Bool) : Nat :=
  if beginIntregsAfterG0 avail = none ∧ isOpen = false then
    maxNumInsnBytesNoFreeRegsNoOpenDS
  else maxNumInsnBytes1FreeReg isOpen

theorem farNumBytes_le (t : Kptr) : farNumBytes t ≤ 16 := by
  have h := toNat_and_not_mask t
  have hlow : (t &&& ~~~0xFFF#64).toNat % 2 ^ 12 = 0 := by omega
  simp only [farNumBytes, immAddrLen, imm32Len, hlow, if_true]
  split_ifs <;> omega

theorem farJumpBytes_le {fill n : Nat} (h : farJumpBytes t fill = some n) : n ≤ 16 + fill := by
  have := farNumBytes_le t
  simp only [farJumpBytes, ite_none_right_eq_some, some.injEq] at h
  omega

/-- To a target below 4 GB, one instruction loads the address. -/
theorem farJumpBytes_le_of_lt (ht : t.toNat < 2 ^ 32) {fill n : Nat}
    (h : farJumpBytes t fill = some n) : n ≤ 8 + fill := by
  have hhi := toNat_and_not_mask t
  have hlow : (t &&& ~~~0xFFF#64).toNat % 2 ^ 10 = 0 := by omega
  have hlt : (t &&& ~~~0xFFF#64).toNat < 2 ^ 32 := by omega
  have hlen : immAddrLen (t &&& ~~~0xFFF#64) = 1 := by
    rw [immAddrLen, if_pos hlt, imm32Len, if_pos (.inr hlow)]
  simp only [farJumpBytes, farNumBytes, hlen, ite_none_right_eq_some, some.injEq] at h
  omega

/-- The jump has at most three instructions, or it is an indirect one. -/
theorem jumpNumBytes_cases (h : jumpNumBytes f t avail isOpen = some n) :
    n ≤ 12 ∨ ∃ fill ≤ 8, 16 + fill ≤ maxNumInsnBytes avail isOpen ∧
      farJumpBytes t fill = some n := by
  have hcall : ∀ {fill}, callJumpBytes f t fill = some n → n ≤ 12 ∨
      farJumpBytes t fill = some n := by
    intro fill h
    obtain ⟨inCall, -, h⟩ := exists_of_bind h
    cases inCall with
    | false => exact .inr h
    | true =>
      simp only [if_true, ite_none_right_eq_some, some.injEq] at h
      exact .inl h.2.ge
  obtain ⟨near, -, h⟩ := exists_of_bind h
  cases near with
  | true =>
    cases h
    exact .inl (by decide)
  | false =>
    obtain ⟨viaO7, -, h⟩ := exists_of_bind h
    cases viaO7 with
    | true =>
      cases h
      exact .inl (by split <;> decide)
    | false =>
      simp only [Bool.false_eq_true, if_false, scratchJumpBytes] at h
      simp only [maxNumInsnBytes, maxNumInsnBytesNoFreeRegsNoOpenDS, maxNumInsnBytes1FreeReg]
      rcases hr : beginIntregsAfterG0 avail with _ | r <;> cases isOpen <;>
        simp only [hr] at h
      · exact (hcall h).imp_right fun h => ⟨8, le_rfl, by simp, h⟩
      · exact nomatch h
      · exact (hcall h).imp_right fun h => ⟨4, by decide, by simp, h⟩
      · exact .inr ⟨0, by decide, by simp, h⟩

theorem jumpNumBytes_le (h : jumpNumBytes f t avail isOpen = some n) :
    n ≤ maxNumInsnBytes avail isOpen := by
  obtain hle | ⟨fill, -, hmax, hfar⟩ := jumpNumBytes_cases h
  · refine hle.trans ?_
    simp only [maxNumInsnBytes, maxNumInsnBytesNoFreeRegsNoOpenDS, maxNumInsnBytes1FreeReg]
    split_ifs <;> decide
  · exact (farJumpBytes_le hfar).trans hmax

/-- To a target below 4 GB, no jump takes more than four instructions. -/
theorem jumpNumBytes_le_16 (ht : t.toNat < 2 ^ 32) (h : jumpNumBytes f t avail isOpen = some n) :
    n ≤ 16 := by
  obtain hle | ⟨fill, hfill, -, hfar⟩ := jumpNumBytes_cases h
  · omega
  · have := farJumpBytes_le_of_lt ht hfar
    omega

end Existence

/-! ## The promise -/

/-- What running the code of a jump does: with an open delay slot, for every instruction
that does not transfer control placed there. -/
def RunsTo (f : Kptr) (ws : List Word) (t : Kptr) (F : Set Reg) (isOpen : Bool) : Prop :=
  if isOpen then
    ∀ code σ k delay, (decode delay).isPlain → Holds code f (ws.map newSlot ++ [delaySlot delay]) →
      ∃ σ₁, SameExcept F σ σ₁ ∧ Reaches sem code (Cpu.seq f σ k)
        (Cpu.seq t (exec sem delay (f + BitVec.ofNat 64 (4 * ws.length)) σ₁) (k + 1))
  else
    ∀ code σ k, Holds code f (ws.map newSlot) →
      ∃ σ', SameExcept F σ σ' ∧ Reaches sem code (Cpu.seq f σ k) (Cpu.seq t σ' k)

/-- The promise of `allocate_appropriate`. It throws only for want of a register with a far
target and an open delay slot. Otherwise its jump generates code of the size it says, within
the published bound, that leads to the target and changes only available registers. -/
def IsRegisterPreservingJump (f t : Kptr) (avail : SparcRegSet) (isOpen : Bool) : Prop :=
  match allocateAppropriate f t avail isOpen with
  | .error .assertion => False
  | .error .notEnoughRegForUsualJump =>
    inRangeOfBicc f t = some false ∧ isOpen = true ∧ ∀ r ≠ Reg.g0, avail.mem (.int r) = false
  | .ok j => ∃ ws, j.generate = some ws ∧ 4 * ws.length = j.numInsnBytes ∧
      j.numInsnBytes ≤ maxNumInsnBytes avail isOpen ∧ RunsTo sem f ws t (intRegs avail) isOpen

variable {sem} in
theorem UsualJump.Works.runsTo {f t : Kptr} {isOpen : Bool} (h : j.Works sem f t F isOpen n) :
    ∃ ws, j.generate = some ws ∧ 4 * ws.length = j.numInsnBytes ∧ RunsTo sem f ws t F isOpen := by
  obtain ⟨ws, hws, hlen, hnum, hjump⟩ := h
  refine ⟨ws, hws, hlen.trans hnum.symm, ?_⟩
  cases isOpen with
  | true =>
    intro code σ k delay hplain hcode
    exact JumpsOpen.run_slot hjump hcode hplain σ k
  | false =>
    intro code σ k hcode
    obtain ⟨σ', hrun, hsame⟩ := hjump code σ k hcode
    exact ⟨σ', hsame, hrun⟩

section Promise

variable {f t : Kptr} {avail : SparcRegSet} {isOpen : Bool}

theorem isRegisterPreservingJump_of_size (hf : f.toNat % 4 = 0) (ht : t.toNat % 4 = 0)
    (h : jumpNumBytes f t avail isOpen = some n) :
    IsRegisterPreservingJump sem f t avail isOpen := by
  obtain ⟨j, hj, hworks⟩ := (allocateAppropriate_agrees sem hf ht).1 n h
  obtain ⟨ws, hws, hlen, hruns⟩ := hworks.runsTo
  obtain ⟨-, -, -, hnum, -⟩ := hworks
  rw [IsRegisterPreservingJump, hj]
  exact ⟨ws, hws, hlen, hnum ▸ jumpNumBytes_le h, hruns⟩

/-- The one exception is thrown where the source says so. -/
theorem allocateAppropriate_throws (hf : f.toNat < 2 ^ 63) (hnear : inRangeOfBicc f t = some false)
    (hreg : beginIntregsAfterG0 avail = none) :
    allocateAppropriate f t avail true = .error .notEnoughRegForUsualJump := by
  obtain ⟨inCall, hinCall, -⟩ := inRangeOf_eq (le_refl 32) hf t
  have ho7 : avail.mem (.int o7) = false :=
    beginIntregsAfterG0_eq_none.mp hreg o7 (by decide)
  have hcall : inRangeOfCall f t = some inCall := hinCall
  cases inCall <;> simp [allocateAppropriate, allocateScratch,
    asserted, Except.bind, hnear, ho7, hreg, hcall]

/-- With a target exactly 2 GB below, a closed jump without `%o7` has no code. -/
theorem jumpNumBytes_two_gb_below (hf : f.toNat + 4 < 2 ^ 63) (hf4 : f.toNat % 4 = 0)
    (ht4 : t.toNat % 4 = 0) (ho7 : avail.mem (.int o7) = false) (h : f.toNat = t.toNat + 2 ^ 31) :
    jumpNumBytes f t avail false = none := by
  have hbicc : inRangeOfBicc f t = some false :=
    (inRangeOf_eq_some (by decide)).mpr ⟨by omega, by simp [InReach]; omega⟩
  have hcall : inRangeOfCall f t = some true :=
    (inRangeOf_eq_some (by decide)).mpr ⟨by omega, by simp [InReach]; omega⟩
  have hnext : ¬ inRangeOfCall (f + 4) t = some true := by
    rw [inRangeOfCall_next_iff (by omega) hf4 ht4 hcall]
    simpa using h
  have hnone : ∀ fill, callJumpBytes f t fill = none := fun fill => by
    simp only [callJumpBytes, hcall, bind_some, if_true, if_neg hnext]
  cases hr : beginIntregsAfterG0 avail <;>
    simp [jumpNumBytes, scratchJumpBytes, hbicc, ho7, hr, hnone]

/-- What a jump needs: a target of at most 44 bits, a register to load it into if the delay
slot is left open and the target is not near, and, if a call without `%o7` is to be closed,
a target that is not exactly 2 GB below. -/
structure CanJump (f t : Kptr) (avail : SparcRegSet) (isOpen : Bool) : Prop where
  target : t.toNat < 2 ^ 44
  register : isOpen = true → inRangeOfBicc f t = some true ∨
    beginIntregsAfterG0 avail ≠ none
  call : isOpen = false → avail.mem (.int Reg.o7) = false → f.toNat ≠ t.toNat + 2 ^ 31

/-- An open jump needs a register, unless its target is near. -/
theorem jumpNumBytes_eq_none_of_no_register (hf : f.toNat < 2 ^ 63)
    (hnear : inRangeOfBicc f t ≠ some true) (hreg : beginIntregsAfterG0 avail = none) :
    jumpNumBytes f t avail true = none := by
  obtain ⟨near, hbicc, -⟩ := inRangeOf_eq (by decide : 24 ≤ 32) hf t
  change inRangeOfBicc f t = some near at hbicc
  have ho7 : avail.mem (.int o7) = false :=
    beginIntregsAfterG0_eq_none.mp hreg o7 (by decide)
  cases near with
  | true => exact absurd hbicc hnear
  | false => simp [jumpNumBytes, scratchJumpBytes, hbicc, ho7, hreg]

theorem exists_jumpNumBytes_iff (hf : f.toNat + 4 < 2 ^ 43) (hf4 : f.toNat % 4 = 0)
    (ht4 : t.toNat % 4 = 0) :
    (∃ n, jumpNumBytes f t avail isOpen = some n) ↔ CanJump f t avail isOpen := by
  constructor
  · rintro ⟨n, hn⟩
    refine ⟨?_, ?_, ?_⟩
    · by_contra hlarge
      rw [jumpNumBytes_eq_none_of_large (by omega) (by omega)] at hn
      cases hn
    · rintro rfl
      by_contra hnone
      obtain ⟨hnear, hreg⟩ := not_or.mp hnone
      rw [jumpNumBytes_eq_none_of_no_register (by omega) hnear (not_not.mp hreg)] at hn
      cases hn
    · rintro rfl ho7 hbelow
      rw [jumpNumBytes_two_gb_below (by omega) hf4 ht4 ho7 hbelow] at hn
      cases hn
  · rintro ⟨ht, hreg, hcall⟩
    exact exists_jumpNumBytes (by omega) hf4 ht ht4 hreg hcall

/-- **usualJump is a register-preserving jump**, for aligned addresses below 4 GB, except
to a target exactly 2 GB below when the delay slot is closed and `%o7` is not available. -/
theorem usualJump_preserves_registers_iff (hf : f.toNat < 2 ^ 32) (ht : t.toNat < 2 ^ 32)
    (hf4 : f.toNat % 4 = 0) (ht4 : t.toNat % 4 = 0) :
    IsRegisterPreservingJump sem f t avail isOpen ↔
      ¬ (isOpen = false ∧ avail.mem (.int Reg.o7) = false ∧ f.toNat = t.toNat + 2 ^ 31) := by
  have h63 : f.toNat < 2 ^ 63 := by omega
  constructor
  · rintro h ⟨rfl, ho7, hbelow⟩
    have hnone := (allocateAppropriate_agrees sem hf4 ht4).2
      (jumpNumBytes_two_gb_below (by omega) hf4 ht4 ho7 hbelow)
    rw [IsRegisterPreservingJump] at h
    rcases halloc : allocateAppropriate f t avail false with e | j
    · rw [halloc] at h
      cases e with
      | assertion => exact h
      | notEnoughRegForUsualJump => exact Bool.false_ne_true h.2.1
    · rw [halloc] at h
      obtain ⟨ws, hws, -⟩ := h
      rw [hnone j halloc] at hws
      cases hws
  · intro h
    obtain ⟨near, hnear, -⟩ := inRangeOf_eq (by decide : 24 ≤ 32) h63 t
    have hbicc : inRangeOfBicc f t = some near := hnear
    rcases Classical.em (isOpen = true ∧ near = false ∧
      beginIntregsAfterG0 avail = none) with ⟨rfl, rfl, hreg⟩ | hsome
    · rw [IsRegisterPreservingJump, allocateAppropriate_throws h63 hbicc hreg]
      exact ⟨hbicc, rfl, beginIntregsAfterG0_eq_none.mp hreg⟩
    · have hreg : isOpen = true → inRangeOfBicc f t = some true ∨
          beginIntregsAfterG0 avail ≠ none := by
        intro hopen
        cases near with
        | true => exact .inl hbicc
        | false => exact .inr fun hnone => hsome ⟨hopen, rfl, hnone⟩
      obtain ⟨n, hn⟩ := exists_jumpNumBytes (by omega) hf4 (by omega) ht4 hreg
        fun hclosed ho7 hbelow => h ⟨hclosed, ho7, hbelow⟩
      exact isRegisterPreservingJump_of_size sem hf4 ht4 hn

/-- A jump from `0x80000004` to 8, with the delay slot closed and no register available: a
`save`, a `call` and a `restore`. -/
theorem usualJump_preserves_registers_save_call_restore :
    allocateAppropriate 0x80000004 8 .emptyset false =
        .ok (.saveCallRestore 0x80000004 8) ∧
      IsRegisterPreservingJump idleSem 0x80000004 8 .emptyset false :=
  ⟨by decide, (usualJump_preserves_registers_iff idleSem (by decide) (by decide) (by decide)
    (by decide)).mpr (by decide)⟩

/-- The jump from `0x80000000` to 0: the range is checked at `0x80000000`, and the call
stands at `0x80000004`. -/
theorem usualJump_two_gb_below_generates_nothing :
    allocateAppropriate 0x80000000 0 .emptyset false =
        .ok (.saveCallRestore 0x80000000 0) ∧
      (saveCallRestore 0x80000000 0).generate = none ∧
      ¬ IsRegisterPreservingJump idleSem 0x80000000 0 .emptyset false := by
  have halloc : allocateAppropriate 0x80000000 0 .emptyset false =
      .ok (.saveCallRestore 0x80000000 0) := by decide
  have hnone : (saveCallRestore 0x80000000 0).generate = none := by decide
  refine ⟨halloc, hnone, fun h => ?_⟩
  obtain ⟨ws, hws, -⟩ := h
  cases hws

end Promise

end Kerninst
