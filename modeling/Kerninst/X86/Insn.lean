import Kerninst.Lib.Checked

/-!
# IA-32 instructions

`x86_instr` keeps the bytes of an instruction, and `get_instruction` reads them: the prefixes,
the opcode from tables, and the size. Of the tables only the types are
modelled that tell calls, jumps and conditional jumps apart from everything else, together
with how they name their destination.
-/

namespace Kerninst.X86

open List

abbrev Byte := BitVec 8

abbrev Addr := BitVec 32

/-! ## Decoding -/

/-- The prefixes of all four groups. -/
def isPrefix (b : Byte) : Bool :=
  b = 0xF0 || b = 0xF2 || b = 0xF3 || b = 0x2E || b = 0x36 || b = 0x3E || b = 0x26 || b = 0x64 ||
    b = 0x65 || b = 0x66 || b = 0x67

/-- The table `sse_prefix`: two-byte opcodes for which a prefix is part of the opcode. -/
def ssePrefix (b : Byte) : Bool :=
  (0x10 ≤ b && b ≤ 0x17) || (0x28 ≤ b && b ≤ 0x2F) || (0x50 ≤ b && b ≤ 0x76) || b = 0x7E ||
    b = 0x7F || b = 0xC2 || (0xC4 ≤ b && b ≤ 0xC6) || (0xD1 ≤ b && b ≤ 0xEF) ||
    (0xF1 ≤ b && b ≤ 0xFE)

def startsSSE : List Byte → Bool
  | b :: c :: _ => b = 0x0F && ssePrefix c
  | _ => false

/-- `ia32_decode_prefixes`: the prefixes that are counted. -/
def decodePrefixes : List Byte → List Byte
  | [] => []
  | b :: rest =>
    if (b = 0xF2 || b = 0xF3 || b = 0x66) && startsSSE rest then []
    else if isPrefix b then b :: decodePrefixes rest
    else []

/-- What `IS_CALL`, `IS_JUMP` and `IS_JCC` tell apart. -/
inductive Kind
  | call
  | jump
  | jcc
  | other
deriving DecidableEq

/-- The addressing modes of calls and jumps. -/
inductive Mode
  | relB
  | relW
  | relD
  | ptr
  | indir
  | none
deriving DecidableEq

/-- `REL_X` is `REL_W` or `REL_D`, depending on the operand size. -/
def relX (word : Bool) : Mode := if word then .relW else .relD

/-- The `reg` field of a ModRM byte. -/
def modRMReg (modrm : Byte) : Nat := modrm.toNat / 8 % 8

/-- The opcodes of group 5 with a type. -/
def groupType : List Byte → Kind × Mode
  | modrm :: _ =>
    if modRMReg modrm = 2 ∨ modRMReg modrm = 3 then (.call, .indir)
    else if modRMReg modrm = 4 ∨ modRMReg modrm = 5 then (.jump, .indir)
    else (.other, .none)
  | [] => (.other, .none)

def twoByteType (word : Bool) : List Byte → Kind × Mode
  | op :: _ => if 0x80 ≤ op ∧ op ≤ 0x8F then (.jcc, relX word) else (.other, .none)
  | [] => (.other, .none)

/-- The type of an instruction, from its opcode; the tables have no type for all other
opcodes. -/
def legacyType (word : Bool) : List Byte → Kind × Mode
  | op :: rest =>
    if op = 0x0F then twoByteType word rest
    else if 0x70 ≤ op ∧ op ≤ 0x7F ∨ op = 0xE3 then (.jcc, .relB)
    else if op = 0x9A then (.call, .ptr)
    else if op = 0xE8 then (.call, relX word)
    else if op = 0xE9 then (.jump, relX word)
    else if op = 0xEA then (.jump, .ptr)
    else if op = 0xEB then (.jump, .relB)
    else if op = 0xFF then groupType rest
    else (.other, .none)
  | [] => (.other, .none)

/-- The instruction without its prefixes. -/
def body (raw : List Byte) : List Byte := raw.drop (decodePrefixes raw).length

/-- `get_instruction`, as far as the type goes. -/
def insnType (raw : List Byte) : Kind × Mode :=
  legacyType ((decodePrefixes raw).contains 0x66) (body raw)

def Mode.dispBytes : Mode → Nat
  | .relB => 1
  | .relW => 2
  | .relD => 4
  | _ => 0

/-- Conditional jumps with more than 8 bits have an opcode of two bytes. -/
def opcodeBytes : Kind × Mode → Nat
  | (.jcc, .relW) | (.jcc, .relD) => 2
  | _ => 1

def readLE : List Byte → Nat
  | [] => 0
  | b :: bs => b.toNat + 256 * readLE bs

def leBytes (v : BitVec 32) : List Byte :=
  [BitVec.ofNat 8 v.toNat, BitVec.ofNat 8 (v.toNat / 2 ^ 8), BitVec.ofNat 8 (v.toNat / 2 ^ 16),
    BitVec.ofNat 8 (v.toNat / 2 ^ 24)]

/-- `displacement`: signed, and zero if there is none. -/
def displacement (raw : List Byte) : Int :=
  let type := insnType raw
  let bytes := ((body raw).drop (opcodeBytes type)).take type.2.dispBytes
  (readLE bytes : Int).bmod (2 ^ (8 * type.2.dispBytes))

def isRelative (raw : List Byte) : Bool :=
  match (insnType raw).2 with
  | .relB | .relW | .relD => true
  | _ => false

/-- `jcxz`, which is typed as a conditional jump. -/
def isJcxz (raw : List Byte) : Bool := (body raw).head? = some 0xE3

/-- The condition of a conditional jump: the low half of the last opcode byte. -/
def condition (raw : List Byte) : Option Nat :=
  match insnType raw with
  | (.jcc, mode) => if isJcxz raw then none else
      ((body raw).drop (opcodeBytes (.jcc, mode) - 1)).head?.map fun op => op.toNat % 16
  | _ => none

/-- The size of an instruction that ends with a displacement. -/
def relSize (raw : List Byte) : Nat :=
  (decodePrefixes raw).length + opcodeBytes (insnType raw) + (insnType raw).2.dispBytes

/-- Where a relative instruction at `addr` leads. -/
def target (raw : List Byte) (addr : Addr) : Addr :=
  addr + BitVec.ofNat 32 (relSize raw) + BitVec.ofInt 32 (displacement raw)

/-- The operation that an indirect call or jump is, from its ModRM byte. -/
def indirOp (raw : List Byte) : Option Nat := ((body raw).drop 1).head?.map modRMReg

/-- An instruction fits the array `raw_bytes`. With a displacement it has all bytes of
it, and nothing after it. -/
structure Insn where
  raw : List Byte
  fits : raw.length ≤ 16
  complete : isRelative raw = true → raw.length = relSize raw

/-! ## Types -/

/-- The opcodes behind each type. -/
inductive Typed (word : Bool) : List Byte → Kind × Mode → Prop
  | other (bs : List Byte) : Typed word bs (.other, .none)
  | farCall (rest : List Byte) : Typed word (0x9A :: rest) (.call, .ptr)
  | farJump (rest : List Byte) : Typed word (0xEA :: rest) (.jump, .ptr)
  | indirCall (rest : List Byte) : Typed word (0xFF :: rest) (.call, .indir)
  | indirJump (rest : List Byte) : Typed word (0xFF :: rest) (.jump, .indir)
  | call (rest : List Byte) : Typed word (0xE8 :: rest) (.call, relX word)
  | jump (rest : List Byte) : Typed word (0xE9 :: rest) (.jump, relX word)
  | short (rest : List Byte) : Typed word (0xEB :: rest) (.jump, .relB)
  | jccShort (op : Byte) (rest : List Byte) (hop : 0x70 ≤ op ∧ op ≤ 0x7F) :
      Typed word (op :: rest) (.jcc, .relB)
  | jcxz (rest : List Byte) : Typed word (0xE3 :: rest) (.jcc, .relB)
  | jcc (op : Byte) (rest : List Byte) (hop : 0x80 ≤ op ∧ op ≤ 0x8F) :
      Typed word (0x0F :: op :: rest) (.jcc, relX word)

theorem groupType_typed (word : Bool) (rest : List Byte) :
    Typed word (0xFF :: rest) (groupType rest) := by
  cases rest with
  | nil => exact .other _
  | cons modrm rest =>
    simp only [groupType]
    split_ifs
    · exact .indirCall _
    · exact .indirJump _
    · exact .other _

theorem twoByteType_typed (word : Bool) (rest : List Byte) :
    Typed word (0x0F :: rest) (twoByteType word rest) := by
  cases rest with
  | nil => exact .other _
  | cons op rest =>
    simp only [twoByteType]
    split_ifs with hop
    · exact .jcc op rest hop
    · exact .other _

theorem legacyType_typed (word : Bool) (bs : List Byte) : Typed word bs (legacyType word bs) := by
  cases bs with
  | nil => exact .other _
  | cons op rest =>
    simp only [legacyType]
    split_ifs with h0F hjcc h9A hE8 hE9 hEA hEB hFF
    · exact h0F ▸ twoByteType_typed word rest
    · rcases hjcc with hop | rfl
      · exact .jccShort op rest hop
      · exact .jcxz rest
    · exact h9A ▸ .farCall rest
    · exact hE8 ▸ .call rest
    · exact hE9 ▸ .jump rest
    · exact hEA ▸ .farJump rest
    · exact hEB ▸ .short rest
    · exact hFF ▸ groupType_typed word rest
    · exact .other _

/-! ## Prefixes -/

theorem decodePrefixes_append_body (raw : List Byte) : decodePrefixes raw ++ body raw = raw := by
  have hsplit : ∀ raw : List Byte, ∃ rest, decodePrefixes raw ++ rest = raw := by
    intro raw
    induction raw with
    | nil => exact ⟨[], rfl⟩
    | cons b raw ih =>
      obtain ⟨rest, hrest⟩ := ih
      simp only [decodePrefixes]
      split_ifs
      · exact ⟨b :: raw, rfl⟩
      · exact ⟨rest, by rw [cons_append, hrest]⟩
      · exact ⟨b :: raw, rfl⟩
  obtain ⟨rest, hrest⟩ := hsplit raw
  have hbody : body raw = rest := by
    rw [body]
    nth_rewrite 2 [← hrest]
    exact drop_left
  rw [hbody, hrest]

theorem isPrefix_of_mem {raw : List Byte} {p : Byte} (h : p ∈ decodePrefixes raw) :
    isPrefix p = true := by
  induction raw with
  | nil => cases h
  | cons b raw ih =>
    simp only [decodePrefixes] at h
    split_ifs at h with hsse hb
    · cases h
    · rcases mem_cons.mp h with rfl | hmem
      · exact hb
      · exact ih hmem
    · cases h

/-- A byte that is no prefix ends the prefixes. -/
theorem decodePrefixes_of_not {b : Byte} (hb : isPrefix b = false) (rest : List Byte) :
    decodePrefixes (b :: rest) = [] := by
  simp [decodePrefixes, hb]

/-! ## The 32-bit forms -/

theorem readLE_leBytes (v : BitVec 32) : readLE (leBytes v) = v.toNat := by
  simp only [leBytes, readLE, BitVec.toNat_ofNat]
  omega

section Forms

variable (v : BitVec 32)

theorem insnType_call32 : insnType (0xE8 :: leBytes v) = (.call, .relD) := by
  rfl

theorem insnType_jmp32 : insnType (0xE9 :: leBytes v) = (.jump, .relD) := by
  rfl

theorem insnType_jcc32 {op : Byte} (hop : 0x80 ≤ op ∧ op ≤ 0x8F) :
    insnType (0x0F :: op :: leBytes v) = (.jcc, .relD) := by
  rw [insnType, body, decodePrefixes_of_not (by decide)]
  simp only [length_nil, drop_zero, legacyType, if_true, twoByteType, if_pos hop]
  rfl

/-- An instruction without prefixes whose displacement is its last four bytes. -/
theorem target_of_type {opcode : List Byte} {kind : Kind}
    (hps : decodePrefixes (opcode ++ leBytes v) = [])
    (htype : insnType (opcode ++ leBytes v) = (kind, .relD))
    (hlen : opcode.length = opcodeBytes (kind, .relD)) {new dest : Addr}
    (hv : v = dest - (new + BitVec.ofNat 32 (opcode ++ leBytes v).length)) :
    target (opcode ++ leBytes v) new = dest := by
  have hlen' : (opcode ++ leBytes v).length = relSize (opcode ++ leBytes v) := by
    rw [relSize, htype, hps, length_append, hlen]
    simp [leBytes, Mode.dispBytes]
  have hdisp : displacement (opcode ++ leBytes v) = v.toInt := by
    rw [displacement, htype, body, hps, ← hlen]
    simp only [length_nil, drop_zero, drop_left, Mode.dispBytes]
    rw [BitVec.toInt_eq_toNat_bmod, ← readLE_leBytes]
    rfl
  rw [target, hdisp, BitVec.ofInt_toInt, ← hlen']
  nth_rewrite 2 [hv]
  rw [BitVec.add_comm, BitVec.sub_add_cancel]

end Forms

end Kerninst.X86
