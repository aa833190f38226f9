import Mathlib.Data.List.Range
import Kerninst.X86.Insn

/-!
# Moving an IA-32 instruction

`x86_instr::relocate` returns the instruction that does at a new address what the old one
did at the old address. Only calls, jumps and conditional jumps with a relative
displacement have to change.

* A short or 16-bit form is replaced by the 32-bit form of the same instruction; a 32-bit
  form is copied.
* Then the new displacement is written over the old one, at byte 1 of a call or jump and at
  byte 2 of a conditional jump. That is its place if there are no prefixes.
* The target is asked for with `isCallToFixedAddress` and `isBranchToFixedAddress`. They take
  a displacement of zero for an indirect transfer: the first then leaves out the length
  of the instruction, and the second gives no address at all.

`relocatesRight_iff` says which instructions are moved right.
-/

namespace Kerninst.X86

open List
open BitVec (ofNat ofInt toNat)

/-! ## Moving -/

/-- `updateControlFlowInfo`: whether the destination is relative, unless an assertion fails.
It expects no far call, and no far indirect jump. -/
def destinationPcRelative (raw : List Byte) : Option Bool :=
  match insnType raw with
  | (.call, .relW) | (.call, .relD) => some true
  | (.call, .indir) => some false
  | (.call, _) => none
  | (.jump, .ptr) => some false
  | (.jump, .relB) | (.jump, .relW) | (.jump, .relD) => some true
  | (.jump, .indir) =>
    (check (indirOp raw = some 4)).map fun _ => false
  | (.jump, .none) => none
  | (.jcc, _) => some true
  | (.other, _) => some false

def isCallToFixedAddress (raw : List Byte) (insnAddr : Addr) : Addr :=
  let offset := displacement raw
  insnAddr + BitVec.ofInt 32 (if offset ≠ 0 then offset + raw.length else offset)

/-- No address is given for a displacement of zero, and the caller's variable stays zero. -/
def isBranchToFixedAddress (raw : List Byte) (insnAddr : Addr) : Addr :=
  let offset := displacement raw
  if offset ≠ 0 then insnAddr + BitVec.ofInt 32 (offset + raw.length) else 0

/-- The address that `relocate` asks for. -/
def destAddr (raw : List Byte) (oldInsnaddr : Addr) : Addr :=
  match (insnType raw).1 with
  | .call => isCallToFixedAddress raw oldInsnaddr
  | _ => isBranchToFixedAddress raw oldInsnaddr

/-- The constructors of the 32-bit forms, with displacement zero. -/
def call32 : List Byte := [0xE8, 0, 0, 0, 0]

def jmp32 : List Byte := [0xE9, 0, 0, 0, 0]

def jcc32 (cc : Byte) : List Byte := [0x0F, 0x80 + cc, 0, 0, 0, 0]

/-- The instruction that gets the new displacement. The condition is read at a fixed place. -/
def widened (raw : List Byte) : Option (List Byte) :=
  match insnType raw with
  | (.call, .relW) => some call32
  | (.jump, .relB) | (.jump, .relW) => some jmp32
  | (.jcc, .relB) =>
    (check (raw.getD 0 0 ≠ 0xE3)).map fun _ => jcc32 (raw.getD 0 0 - 0x70)
  | (.jcc, .relW) => some (jcc32 (raw.getD 2 0 - 0x80))
  | _ => some raw

/-- Write four bytes. -/
def patch (raw : List Byte) (pos : Nat) (v : BitVec 32) : List Byte :=
  raw.take pos ++ leBytes v ++ raw.drop (pos + 4)

def changeBranchOffset (raw : List Byte) (newOffset : BitVec 32) : Option (List Byte) :=
  match (insnType raw).1 with
  | .call | .jump => some (patch raw 1 newOffset)
  | .jcc => some (patch raw 2 newOffset)
  | .other => none

def relocate (raw : List Byte) (oldInsnaddr newInsnaddr : Addr) : Option (List Byte) := do
  let pcRelative ← destinationPcRelative raw
  if pcRelative then
    let copy ← widened raw
    changeBranchOffset copy
      (destAddr raw oldInsnaddr - (newInsnaddr + BitVec.ofNat 32 copy.length))
  else pure raw

/-! ## What is right -/

/-- The same transfer of control, from another place. -/
structure SameTransfer (raw : List Byte) (old : Addr) (raw' : List Byte) (new : Addr) : Prop where
  kind : (insnType raw').1 = (insnType raw).1
  relative : isRelative raw' = true
  condition : condition raw' = condition raw
  target : target raw' new = target raw old

/-- For all addresses: a relative call or jump is the same transfer, and any other
instruction is the same. Nothing is asked of `jcxz`. -/
structure RelocatesRight (i : Insn) : Prop where
  relative : isRelative i.raw = true → isJcxz i.raw = false → ∀ old new,
    ∃ raw', relocate i.raw old new = some raw' ∧ SameTransfer i.raw old raw' new
  other : isRelative i.raw = false → ∀ old new, relocate i.raw old new = some i.raw

/-- Where the code looks for the opcode there is nothing else. -/
def prefixesExpected (raw : List Byte) : Prop :=
  match insnType raw with
  | (.jump, .relB) | (.jump, .relW) | (.call, .relW) => True
  | (.jcc, .relW) => (decodePrefixes raw).length = 1
  | _ => decodePrefixes raw = []

/-- A far call, or a far indirect jump. -/
def isFar (raw : List Byte) : Prop :=
  insnType raw = (.call, .ptr) ∨
    insnType raw = (.jump, .indir) ∧ indirOp raw ≠ some 4

/-- What the code is made for. -/
structure Handled (i : Insn) : Prop where
  displaced : isRelative i.raw = true → isJcxz i.raw = false → displacement i.raw ≠ 0
  expected : isRelative i.raw = true → isJcxz i.raw = false → prefixesExpected i.raw
  near : ¬ isFar i.raw

/-! ## Moving to a 32-bit form -/

/-- `raw` is moved to the 32-bit form with this opcode, and it is the right form. -/
structure MovesTo (raw opcode : List Byte) : Prop where
  moved : ∀ old new, relocate raw old new = some (opcode ++
    leBytes (destAddr raw old - (new + BitVec.ofNat 32 (opcode.length + 4))))
  noPrefixes : ∀ v, decodePrefixes (opcode ++ leBytes v) = []
  type : ∀ v, insnType (opcode ++ leBytes v) = ((insnType raw).1, .relD)
  length : opcode.length = opcodeBytes ((insnType raw).1, .relD)
  condition : ∀ v, condition (opcode ++ leBytes v) = condition raw

section Moving

variable {raw opcode : List Byte} {old new : Addr}

/-- The moved instruction leads to the address that was asked for. -/
theorem MovesTo.target_eq (h : MovesTo raw opcode) {raw' : List Byte}
    (hraw' : relocate raw old new = some raw') : target raw' new = destAddr raw old := by
  rw [h.moved old new, Option.some.injEq] at hraw'
  subst hraw'
  refine target_of_type _ (h.noPrefixes _) (h.type _) h.length ?_
  simp [leBytes]

/-- A copy that ends with four bytes of displacement gets the new one. -/
theorem relocate_of_copy {kind : Kind} {tail : List Byte}
    (hpc : destinationPcRelative raw = some true) (hcopy : widened raw = some (opcode ++ tail))
    (htail : tail.length = 4) (htype : insnType (opcode ++ tail) = (kind, .relD))
    (hkind : kind ≠ .other) (hlen : opcode.length = opcodeBytes (kind, .relD)) (old new : Addr) :
    relocate raw old new = some (opcode ++
      leBytes (destAddr raw old - (new + ofNat 32 (opcode.length + 4)))) := by
  have hpatch : ∀ v, patch (opcode ++ tail) opcode.length v = opcode ++ leBytes v := by
    intro v
    rw [patch, take_left, ← htail, ← length_append, drop_length, append_nil]
  simp only [relocate, hpc, hcopy, run_do, if_true, changeBranchOffset, htype, length_append, htail]
  cases kind with
  | other => exact absurd rfl hkind
  | call | jump | jcc =>
    rw [← hpatch, hlen]
    rfl

theorem condition_of_ne (h : (insnType raw).1 ≠ .jcc) : condition raw = none := by
  unfold condition
  split
  case h_1 mode hmode => exact absurd (congrArg Prod.fst hmode) h
  case h_2 => rfl

/-- Calls and jumps have an opcode of one byte. -/
theorem movesTo_one {op : Byte} {kind : Kind} (hop : isPrefix op = false)
    (hk : (insnType raw).1 = kind) (hne : kind ≠ .jcc)
    (htype : ∀ v, insnType (op :: leBytes v) = (kind, .relD))
    (hmoved : ∀ old new, relocate raw old new = some ([op] ++
      leBytes (destAddr raw old - (new + ofNat 32 5)))) : MovesTo raw [op] := by
  subst hk
  refine ⟨hmoved, fun v => decodePrefixes_of_not hop _, htype, ?_, fun v => ?_⟩
  · cases hk : (insnType raw).1 with
    | jcc => exact absurd hk hne
    | _ => rfl
  · have hne' : (insnType ([op] ++ leBytes v)).1 ≠ .jcc := by
      rw [singleton_append, htype]
      exact hne
    rw [condition_of_ne hne, condition_of_ne hne']

theorem movesTo_jcc {op : Byte} (hop : 0x80 ≤ op ∧ op ≤ 0x8F) (hk : (insnType raw).1 = .jcc)
    (hcond : condition raw = some (op.toNat % 16))
    (hmoved : ∀ old new, relocate raw old new = some ([0x0F, op] ++
      leBytes (destAddr raw old - (new + ofNat 32 6)))) : MovesTo raw [0x0F, op] := by
  refine ⟨hmoved, fun v => decodePrefixes_of_not (by decide) _, fun v => ?_, ?_, fun v => ?_⟩
  · rw [hk]
    exact insnType_jcc32 v hop
  · rw [hk]
    rfl
  · rw [hcond]
    have hbody : body (0x0F :: op :: leBytes v) = 0x0F :: op :: leBytes v := by rfl
    simp only [condition, cons_append, nil_append, insnType_jcc32 v hop, isJcxz, hbody]
    rfl

/-- A 32-bit form without prefixes is moved as it is. -/
theorem relocate_copied {kind : Kind} {tail : List Byte}
    (hraw : decodePrefixes raw ++ (opcode ++ tail) = raw) (htype : insnType raw = (kind, .relD))
    (hkind : kind ≠ .other) (hlen : opcode.length = opcodeBytes (kind, .relD))
    (hexp : prefixesExpected raw) (hsize : raw.length = relSize raw) (old new : Addr) :
    relocate raw old new = some (opcode ++
      leBytes (destAddr raw old - (new + ofNat 32 (opcode.length + 4)))) := by
  have hps : decodePrefixes raw = [] := by
    cases kind <;> simpa only [prefixesExpected, htype] using hexp
  rw [hps, nil_append] at hraw
  have htail : tail.length = 4 := by
    rw [relSize, htype, hps, ← hraw, length_append, hlen, length_nil] at hsize
    simp only [Mode.dispBytes] at hsize
    omega
  refine relocate_of_copy ?_ ?_ htail (hraw ▸ htype) hkind hlen old new
  · cases kind <;> simp_all [destinationPcRelative]
  · cases kind <;> simp [widened, htype, hraw]

/-- The opcodes of the relative transfers, but for `jecxz`. -/
inductive RelativeTyped (word : Bool) : List Byte → Kind × Mode → Prop
  | call (rest : List Byte) : RelativeTyped word (0xE8 :: rest) (.call, relX word)
  | jump (rest : List Byte) : RelativeTyped word (0xE9 :: rest) (.jump, relX word)
  | short (rest : List Byte) : RelativeTyped word (0xEB :: rest) (.jump, .relB)
  | jccShort (op : Byte) (rest : List Byte) (hop : 0x70 ≤ op ∧ op ≤ 0x7F) :
      RelativeTyped word (op :: rest) (.jcc, .relB)
  | jcc (op : Byte) (rest : List Byte) (hop : 0x80 ≤ op ∧ op ≤ 0x8F) :
      RelativeTyped word (0x0F :: op :: rest) (.jcc, relX word)

theorem relativeTyped (hrel : isRelative raw = true) (hj : isJcxz raw = false) :
    RelativeTyped ((decodePrefixes raw).contains 0x66) (body raw) (insnType raw) := by
  have htyped := legacyType_typed ((decodePrefixes raw).contains 0x66) (body raw)
  rw [← insnType] at htyped
  rw [isJcxz] at hj
  rw [isRelative] at hrel
  generalize (decodePrefixes raw).contains 0x66 = word at htyped ⊢
  generalize body raw = bs at htyped hj ⊢
  generalize insnType raw = type at htyped hrel ⊢
  cases htyped with
  | other bs | farCall rest | farJump rest | indirCall rest | indirJump rest => cases hrel
  | jcxz rest => cases hj
  | call rest => exact .call rest
  | jump rest => exact .jump rest
  | short rest => exact .short rest
  | jccShort op rest hop => exact .jccShort op rest hop
  | jcc op rest hop => exact .jcc op rest hop

/-- **Where the opcode is found, the instruction is moved to the right form.** -/
theorem exists_movesTo (hsize : raw.length = relSize raw) (hrel : isRelative raw = true)
    (hj : isJcxz raw = false) (hexp : prefixesExpected raw) : ∃ opcode, MovesTo raw opcode := by
  have hsplit := decodePrefixes_append_body raw
  have htyped := relativeTyped hrel hj
  generalize hword : (decodePrefixes raw).contains 0x66 = word at htyped
  generalize hbody : body raw = bs at htyped hsplit
  generalize htype : insnType raw = type at htyped
  cases htyped with
  | short rest =>
    refine ⟨[0xE9], movesTo_one (by decide) (by rw [htype]) (by decide) insnType_jmp32
      (relocate_of_copy ?_ ?_ rfl (insnType_jmp32 0) (by decide) rfl)⟩
    all_goals simp only [destinationPcRelative, widened, htype]
    rfl
  | call rest =>
    refine ⟨[0xE8], movesTo_one (by decide) (by rw [htype]) (by decide) insnType_call32 ?_⟩
    cases word with
    | true =>
      refine relocate_of_copy ?_ ?_ rfl (insnType_call32 0) (by decide) rfl
      all_goals simp only [destinationPcRelative, widened, htype, relX, if_true]
      rfl
    | false => exact relocate_copied hsplit htype (by decide) rfl hexp hsize
  | jump rest =>
    refine ⟨[0xE9], movesTo_one (by decide) (by rw [htype]) (by decide) insnType_jmp32 ?_⟩
    cases word with
    | true =>
      refine relocate_of_copy ?_ ?_ rfl (insnType_jmp32 0) (by decide) rfl
      all_goals simp only [destinationPcRelative, widened, htype, relX, if_true]
      rfl
    | false => exact relocate_copied hsplit htype (by decide) rfl hexp hsize
  | jccShort op rest hop =>
    simp only [prefixesExpected, htype] at hexp
    rw [hexp, nil_append] at hsplit
    have hop' : 0x80 ≤ 0x80 + (op - 0x70) ∧ 0x80 + (op - 0x70) ≤ 0x8F := by bv_omega
    have hmod : (0x80 + (op - 0x70)).toNat % 16 = op.toNat % 16 := by bv_omega
    have hne : op ≠ 0xE3 := by bv_omega
    have hfirst : raw.getD 0 0 = op := by
      rw [← hsplit]
      rfl
    refine ⟨[0x0F, 0x80 + (op - 0x70)], movesTo_jcc hop' (by rw [htype]) ?_
      (relocate_of_copy ?_ ?_ rfl (insnType_jcc32 0 hop') (by decide) rfl)⟩
    · rw [hmod]
      simp only [condition, htype, hj, hbody, opcodeBytes]
      rfl
    · simp [destinationPcRelative, htype]
    · simp only [widened, htype, hfirst, check_pos hne]
      rfl
  | jcc op rest hop =>
    have hcond : condition raw = some (op.toNat % 16) := by
      cases word <;> simp only [condition, htype, hj, hbody, opcodeBytes, relX] <;> rfl
    refine ⟨[0x0F, op], movesTo_jcc hop (by rw [htype]) hcond ?_⟩
    cases word with
    | true =>
      simp only [prefixesExpected, htype, relX] at hexp
      obtain ⟨p, hp⟩ := length_eq_one_iff.mp hexp
      rw [hp] at hsplit
      have hthird : 0x80 + (raw.getD 2 0 - 0x80) = op := by
        rw [← hsplit]
        show 0x80 + (op - 0x80) = op
        rw [BitVec.add_comm, BitVec.sub_add_cancel]
      refine relocate_of_copy ?_ ?_ rfl (insnType_jcc32 0 hop) (by decide) rfl
      · simp [destinationPcRelative, htype]
      · simp only [widened, htype, relX, jcc32, hthird]
        rfl
    | false => exact relocate_copied hsplit htype (by decide) rfl hexp hsize

end Moving

/-! ## Prefixes that are not expected -/

section Unexpected

variable {raw : List Byte}

theorem decodePrefixes_cons {p : Byte} {rest : List Byte} (hp : isPrefix p = true)
    (hsse : startsSSE rest = false) : decodePrefixes (p :: rest) = p :: decodePrefixes rest := by
  simp [decodePrefixes, hp, hsse]

theorem decodePrefixes_nop (rest : List Byte) : decodePrefixes (0x90 :: rest) = [] :=
  decodePrefixes_of_not (by decide) rest

theorem startsSSE_nop (rest : List Byte) : startsSSE (0x90 :: rest) = false := by
  cases rest <;> rfl

/-- A `nop` where the opcode should be. -/
theorem insnType_nop {p : Byte} (hp : isPrefix p = true) (rest : List Byte) :
    insnType (p :: 0x90 :: rest) = (.other, .none) := by
  have hps : decodePrefixes (p :: 0x90 :: rest) = [p] := by
    rw [decodePrefixes_cons hp (startsSSE_nop rest), decodePrefixes_nop]
  rw [insnType, body, hps]
  rfl

/-- The same one byte later, after another prefix or after the first opcode byte. -/
theorem insnType_nop' {p x : Byte} (hp : isPrefix p = true) (hx : isPrefix x = true ∨ x = 0x0F)
    (rest : List Byte) : (insnType (p :: x :: 0x90 :: rest)).1 = .other := by
  rcases hx with hx | rfl
  · have hsse : startsSSE (x :: 0x90 :: rest) = false := by
      rw [startsSSE, show ssePrefix 0x90 = false from rfl, Bool.and_false]
    have hps : decodePrefixes (p :: x :: 0x90 :: rest) = [p, x] := by
      rw [decodePrefixes_cons hp hsse, decodePrefixes_cons hx (startsSSE_nop rest),
        decodePrefixes_nop]
    rw [insnType, body, hps]
    rfl
  · have hps : decodePrefixes (p :: 0x0F :: 0x90 :: rest) = [p] := by
      rw [decodePrefixes_cons hp rfl, decodePrefixes_of_not (by decide)]
    rw [insnType, body, hps]
    rfl

/-- There are addresses for which the new displacement is any given one. -/
theorem exists_offset (raw : List Byte) (n : Nat) (v : BitVec 32) :
    ∃ old new, destAddr raw old - (new + ofNat 32 n) = v := by
  refine ⟨0, destAddr raw 0 - ofNat 32 n - v, ?_⟩
  generalize destAddr raw 0 = d
  generalize ofNat 32 n = m
  bv_omega

/-- A conditional jump with more than 8 bits. -/
theorem body_of_jcc {mode : Mode} (htype : insnType raw = (.jcc, mode)) (hmode : mode ≠ .relB) :
    ∃ op rest, body raw = 0x0F :: op :: rest := by
  have htyped := legacyType_typed ((decodePrefixes raw).contains 0x66) (body raw)
  rw [← insnType, htype] at htyped
  generalize hbody : body raw = bs at htyped
  cases htyped with
  | jcc op rest => exact ⟨op, rest, rfl⟩
  | jccShort | jcxz => exact absurd rfl hmode

/-- **The opcode of a prefixed 32-bit form can be overwritten.** -/
theorem misplaced {kind : Kind} (htype : insnType raw = (kind, .relD)) (hkind : kind ≠ .other)
    (hps : decodePrefixes raw ≠ []) :
    ∃ old new raw', relocate raw old new = some raw' ∧ (insnType raw').1 = .other := by
  obtain ⟨old, new, hoff⟩ := exists_offset raw raw.length 0x90
  have hsplit := decodePrefixes_append_body raw
  obtain ⟨p, ps, hcons⟩ := exists_cons_of_ne_nil hps
  have hp : isPrefix p = true := isPrefix_of_mem (hcons ▸ mem_cons_self)
  have hpc : destinationPcRelative raw = some true := by
    cases kind <;> simp_all [destinationPcRelative]
  have hcopy : widened raw = some raw := by cases kind <;> simp [widened, htype]
  have hraw : raw = p :: (ps ++ body raw) := by
    rw [hcons] at hsplit
    exact hsplit.symm
  refine ⟨old, new, ?_⟩
  simp only [relocate, hpc, hcopy, run_do, if_true, hoff, changeBranchOffset, htype]
  cases kind with
  | other => exact absurd rfl hkind
  | call | jump =>
    refine ⟨_, rfl, ?_⟩
    rw [hraw]
    exact congrArg Prod.fst (insnType_nop hp _)
  | jcc =>
    refine ⟨_, rfl, ?_⟩
    obtain ⟨op, rest, hbody⟩ := body_of_jcc htype (by decide)
    rw [hbody] at hraw
    rw [hraw]
    cases ps with
    | nil => exact insnType_nop' hp (.inr rfl) _
    | cons x ps =>
      have hmem : x ∈ decodePrefixes raw := by
        rw [hcons]
        simp
      have hx : isPrefix x = true := isPrefix_of_mem hmem
      exact insnType_nop' hp (.inl hx) _

/-- A conditional jump whose condition is read at the wrong place is not moved. -/
theorem not_moved_of_jcc32 (cc : Byte) (hpc : destinationPcRelative raw = some true)
    (hcopy : widened raw = some (jcc32 cc)) (hcc : ¬ (0x80 ≤ 0x80 + cc ∧ 0x80 + cc ≤ 0x8F))
    (old new : Addr) : relocate raw old new = none := by
  have htype : insnType (jcc32 cc) = (.other, .none) := by
    rw [insnType, body, jcc32, decodePrefixes_of_not (by decide)]
    simp only [length_nil, drop_zero, legacyType, if_true, twoByteType, if_neg hcc]
  simp [relocate, hpc, hcopy, changeBranchOffset, htype]

/-- The prefixes are no opcodes of conditional jumps, wherever they are taken for one. -/
theorem not_jcc_of_isPrefix {p : Byte} (hp : isPrefix p = true) :
    ¬ (0x80 ≤ 0x80 + (p - 0x70) ∧ 0x80 + (p - 0x70) ≤ 0x8F) ∧
      ¬ (0x80 ≤ 0x80 + (p - 0x80) ∧ 0x80 + (p - 0x80) ≤ 0x8F) := by
  simp only [isPrefix, Bool.or_eq_true, decide_eq_true_eq] at hp
  rcases hp with (((((((((h | h) | h) | h) | h) | h) | h) | h) | h) | h) | h <;> subst h <;> decide

/-- **With a prefix that is not expected**, some move does not give a transfer of the same
kind. -/
theorem exists_wrong (hrel : isRelative raw = true) (hj : isJcxz raw = false)
    (hexp : ¬ prefixesExpected raw) :
    ∃ old new, ∀ raw', relocate raw old new = some raw' → (insnType raw').1 ≠ (insnType raw).1 := by
  have hsplit := decodePrefixes_append_body raw
  have htyped := relativeTyped hrel hj
  generalize hword : (decodePrefixes raw).contains 0x66 = word at htyped
  generalize hbody : body raw = bs at htyped hsplit
  generalize htype : insnType raw = type at htyped
  have hmisplaced : ∀ kind, insnType raw = (kind, .relD) → kind ≠ .other →
      decodePrefixes raw ≠ [] → ∃ old new, ∀ raw', relocate raw old new = some raw' →
        (insnType raw').1 ≠ kind := by
    intro kind hkind hne hps
    obtain ⟨old, new, raw₁, hraw₁, hother⟩ := misplaced hkind hne hps
    refine ⟨old, new, fun raw' hraw' => ?_⟩
    rw [Option.mem_unique hraw' hraw₁, hother]
    exact hne.symm
  cases htyped with
  | short rest => simp [prefixesExpected, htype] at hexp
  | call rest | jump rest =>
    cases word with
    | true => simp [prefixesExpected, htype, relX] at hexp
    | false =>
      exact hmisplaced _ htype (by decide) (by simpa [prefixesExpected, htype, relX] using hexp)
  | jccShort op rest hop =>
    obtain ⟨p, ps, hcons⟩ : ∃ p ps, decodePrefixes raw = p :: ps :=
      exists_cons_of_ne_nil (by simpa [prefixesExpected, htype] using hexp)
    have hp : isPrefix p = true := isPrefix_of_mem (hcons ▸ mem_cons_self)
    have hfirst : raw.getD 0 0 = p := by
      rw [← hsplit, hcons]
      rfl
    have hne : p ≠ 0xE3 := by
      rintro rfl
      cases hp
    have hnone := not_moved_of_jcc32 (p - 0x70)
      (show destinationPcRelative raw = some true by simp [destinationPcRelative, htype])
      (by simp only [widened, htype, hfirst, check_pos hne]; rfl) (not_jcc_of_isPrefix hp).1
    exact ⟨0, 0, fun raw' hraw' => by simp [hnone] at hraw'⟩
  | jcc op rest hop =>
    cases word with
    | false =>
      exact hmisplaced _ htype (by decide) (by simpa [prefixesExpected, htype, relX] using hexp)
    | true =>
      -- one prefix is the operand size, and there is another one
      have hthird : ¬ (0x80 ≤ 0x80 + (raw.getD 2 0 - 0x80) ∧
          0x80 + (raw.getD 2 0 - 0x80) ≤ 0x8F) := by
        have hlen : (decodePrefixes raw).length ≠ 1 := by
          simpa [prefixesExpected, htype, relX] using hexp
        cases hps : decodePrefixes raw with
        | nil => simp [hps] at hword
        | cons p ps =>
          cases ps with
          | nil => simp [hps] at hlen
          | cons q ps =>
            rw [hps] at hsplit
            cases ps with
            | nil =>
              rw [← hsplit]
              exact (by decide : ¬ ((0x80 : Byte) ≤ 0x80 + (0x0F - 0x80) ∧
                0x80 + ((0x0F : Byte) - 0x80) ≤ 0x8F))
            | cons r ps =>
              have hmem : r ∈ decodePrefixes raw := by
                rw [hps]
                simp
              rw [← hsplit]
              exact (not_jcc_of_isPrefix (isPrefix_of_mem hmem)).2
      have hnone := not_moved_of_jcc32 (raw.getD 2 0 - 0x80)
        (show destinationPcRelative raw = some true by simp [destinationPcRelative, htype])
        (by simp only [widened, htype, relX]; rfl) hthird
      exact ⟨0, 0, fun raw' hraw' => by simp [hnone] at hraw'⟩

end Unexpected

/-! ## Which instructions are moved right -/

section Right

variable {raw : List Byte} {old : Addr}

theorem destAddr_eq_target (hsize : raw.length = relSize raw) (hd : displacement raw ≠ 0) :
    destAddr raw old = target raw old := by
  have hsum : old + ofInt 32 (displacement raw + raw.length) = target raw old := by
    rw [target, ← hsize, BitVec.ofInt_add, BitVec.ofInt_natCast, BitVec.add_assoc,
      BitVec.add_comm (ofInt 32 _)]
  unfold destAddr
  split
  · rw [isCallToFixedAddress, if_pos hd, hsum]
  · rw [isBranchToFixedAddress, if_pos hd, hsum]

/-- A displacement of zero is lost. -/
theorem exists_destAddr_ne (hfits : raw.length ≤ 16) (hsize : raw.length = relSize raw)
    (hd : displacement raw = 0) : ∃ old, destAddr raw old ≠ target raw old := by
  have hpos : 0 < relSize raw := by
    have : 0 < opcodeBytes (insnType raw) := by
      unfold opcodeBytes
      split <;> decide
    unfold relSize
    omega
  have hne : ofNat 32 (relSize raw) ≠ 0 := by
    intro h
    have := congrArg toNat h
    rw [BitVec.toNat_ofNat, Nat.mod_eq_of_lt (by omega)] at this
    exact hpos.ne' this
  refine ⟨0, ?_⟩
  have htarget : target raw 0 = ofNat 32 (relSize raw) := by
    rw [target, hd]
    simp
  rw [htarget]
  unfold destAddr
  split
  · rw [isCallToFixedAddress, hd, if_neg (by decide)]
    exact hne.symm
  · rw [isBranchToFixedAddress, if_neg (not_not.mpr hd)]
    exact hne.symm

/-- An instruction that is not relative is returned as it is, unless it is a far transfer
that the code does not expect. -/
theorem relocate_other_iff (hrel : isRelative raw = false) (old new : Addr) :
    relocate raw old new = some raw ↔ ¬ isFar raw := by
  have htyped := legacyType_typed ((decodePrefixes raw).contains 0x66) (body raw)
  rw [← insnType] at htyped
  generalize (decodePrefixes raw).contains 0x66 = word at htyped
  generalize hbody : body raw = bs at htyped
  generalize htype : insnType raw = type at htyped
  cases htyped with
  | other | farCall | farJump | indirCall => simp [relocate, destinationPcRelative, isFar, htype]
  | indirJump rest =>
    by_cases hnear : indirOp raw = some 4 <;>
      simp [relocate, destinationPcRelative, isFar, htype, check, hnear]
  | call | jump | jcc => cases word <;> simp [isRelative, htype, relX] at hrel
  | short | jccShort | jcxz => simp [isRelative, htype] at hrel

end Right

/-- **Which instructions are moved right**: those with a displacement other than zero and
without prefixes that the code does not expect, and of the others all but the far call and
the far indirect jump. -/
theorem relocatesRight_iff (i : Insn) : RelocatesRight i ↔ Handled i := by
  constructor
  · intro h
    have hexp : isRelative i.raw = true → isJcxz i.raw = false → prefixesExpected i.raw := by
      intro hrel hj
      by_contra hne
      obtain ⟨old, new, hwrong⟩ := exists_wrong hrel hj hne
      obtain ⟨raw', hraw', hsame⟩ := h.relative hrel hj old new
      exact hwrong raw' hraw' hsame.kind
    refine ⟨fun hrel hj hd => ?_, hexp, fun hfar => ?_⟩
    · obtain ⟨opcode, hmoves⟩ := exists_movesTo (i.complete hrel) hrel hj (hexp hrel hj)
      obtain ⟨old, hne⟩ := exists_destAddr_ne i.fits (i.complete hrel) hd
      obtain ⟨raw', hraw', hsame⟩ := h.relative hrel hj old 0
      exact hne ((hmoves.target_eq hraw').symm.trans hsame.target)
    · have hrel : isRelative i.raw = false := by
        rcases hfar with hfar | ⟨hfar, -⟩ <;> rw [isRelative, hfar]
      exact (relocate_other_iff hrel 0 0).mp (h.other hrel 0 0) hfar
  · intro h
    refine ⟨fun hrel hj old new => ?_, fun hrel old new => ?_⟩
    · obtain ⟨opcode, hmoves⟩ := exists_movesTo (i.complete hrel) hrel hj (h.expected hrel hj)
      have hdest : destAddr i.raw old = target i.raw old :=
        destAddr_eq_target (i.complete hrel) (h.displaced hrel hj)
      refine ⟨_, hmoves.moved old new, ?_, ?_, hmoves.condition _, ?_⟩
      · rw [hmoves.type]
      · rw [isRelative, hmoves.type]
      · rw [hmoves.target_eq (hmoves.moved old new), hdest]
    · exact (relocate_other_iff hrel old new).mpr h.near

/-- A short jump to the next instruction. -/
def jmpNext : Insn := ⟨[0xEB, 0x00], by decide, by decide⟩

/-- The jump to the next instruction at `0x1000`, moved to `0x2000`, leads to address zero. -/
theorem relocate_jmpNext :
    relocate jmpNext.raw 0x1000 0x2000 = some [0xE9, 0xFB, 0xDF, 0xFF, 0xFF] ∧
      target [0xE9, 0xFB, 0xDF, 0xFF, 0xFF] 0x2000 = 0 ∧ ¬ RelocatesRight jmpNext := by
  have hmoved : relocate jmpNext.raw 0x1000 0x2000 = some [0xE9, 0xFB, 0xDF, 0xFF, 0xFF] := by
    decide
  refine ⟨hmoved, by decide, fun h => ?_⟩
  obtain ⟨raw', hraw', hsame⟩ := h.relative (by decide) (by decide) 0x1000 0x2000
  obtain rfl := Option.mem_unique hmoved hraw'
  have htarget := hsame.target
  revert htarget
  decide

end Kerninst.X86
