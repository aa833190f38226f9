import Mathlib.Data.List.Basic

/-!
# Where return values are read

Modelled from `generateCode` and `generateCode_phase2` of `kerninstapi/codegen/src/ast.C` and from
`emitFuncCall`. The code for a return value depends on the address of the splice point, which the
generator hands down the tree as `location`. For the second operand of a sequence it is left out
and is then `NULL`, so that a return value in there dereferences `NULL`. As `kapi_sequence_expr`
makes each snippet of a sequence but the first a second operand, this is most of them.

The trees are trees: no node is an operand of two nodes. The one exception is made by the
constructor for atomic stores, which takes the address out of the variable that is stored to, so
that code for it is generated twice. The second time, its register should have been kept.
-/

namespace Kerninst.Codegen

/-- `kptr_t` -/
abbrev Kptr := BitVec 64

/-- A node, with the operands that code is generated for. A `whileOp` may have no body; an operand
that is stored to, or whose address is taken, stands for the address if it is a `DataIndir`.
What the generator asserts never to see is left out. -/
inductive AstNode
  /-- an operand or operator that has no operands of its own -/
  | leaf
  | labelNode
  /-- `ReturnVal`, with `oValue` -/
  | returnVal (entryAddr : Kptr)
  | dataIndir (loperand : AstNode)
  | getAddrOp (loperand : AstNode)
  | setPIL (loperand : AstNode)
  | ifOp (loperand roperand : AstNode)
  | ifElse (loperand roperand eoperand : AstNode)
  | whileOp (loperand roperand : AstNode)
  /-- `storeOp` and `storeIndirOp` -/
  | storeOp (loperand roperand : AstNode)
  /-- a store to the variable at `eoperand` -/
  | storeAtomicOp (eoperand roperand : AstNode)
  /-- an arithmetic or relational operator -/
  | binary (loperand roperand : AstNode)
  | callNode (operands : List AstNode)
  | sequenceNode (loperand roperand : AstNode)

namespace AstNode

/-- `generateCode_phase2` of a node that `setUseCount` has counted twice, the second time. What has
kept its register returns it, and what cannot be kept is generated again. No code for a return value
is generated, since that is an operand, and operands keep their registers. -/
def generatedAgain : AstNode → Bool
  | leaf | returnVal _ | dataIndir _ | binary _ _ => true
  -- `canBeKept` asserts that it is not asked about these
  | labelNode | callNode _ => false
  -- these have no register to keep, but their operands have been counted once
  | getAddrOp _ | setPIL _ | storeAtomicOp _ _ => false
  | ifOp l r | whileOp l r | storeOp l r | sequenceNode l r => generatedAgain l && generatedAgain r
  | ifElse l r e => generatedAgain l && (generatedAgain r && generatedAgain e)

/-- The code `x` and then the code `y`. -/
def andThen {α : Type} (x y : Option (List α)) : Option (List α) :=
  x.bind fun l => y.map (l ++ ·)

/-- The splice addresses with which return values are generated. -/
abbrev Code := Option (List (Kptr × Kptr))

mutual

/-- `generateCode_phase2`. It is `none` if `NULL` is dereferenced or an assertion fails. -/
def generateCode (location : Option Kptr) : AstNode → Code
  | leaf | labelNode => some []
  | returnVal entryAddr => location.map fun spliceAddr => [(entryAddr, spliceAddr)]
  | dataIndir l | getAddrOp l | setPIL l => generateCode location l
  | ifOp l r | whileOp l r | binary l r =>
    andThen (generateCode location l) (generateCode location r)
  | ifElse l r e => andThen (generateCode location l)
    (andThen (generateCode location r) (generateCode location e))
  | storeOp l r => andThen (generateCode location r) (generateCode location l)
  | storeAtomicOp e r => andThen (generateCode location e) (andThen (generateCode location r)
    (if e.generatedAgain then some [] else none))
  | callNode operands => emitFuncCall location operands
  | sequenceNode l r => andThen (generateCode location l) (generateCode none r)

/-- The arguments of a call. -/
def emitFuncCall (location : Option Kptr) : List AstNode → Code
  | [] => some []
  | arg :: args => andThen (generateCode location arg) (emitFuncCall location args)

end

mutual

/-- The return values in the order in which they are generated. -/
def retvals : AstNode → List Kptr
  | leaf | labelNode => []
  | returnVal entryAddr => [entryAddr]
  | dataIndir l | getAddrOp l | setPIL l => retvals l
  | ifOp l r | whileOp l r | binary l r | storeAtomicOp l r | sequenceNode l r =>
    retvals l ++ retvals r
  | ifElse l r e => retvals l ++ (retvals r ++ retvals e)
  | storeOp l r => retvals r ++ retvals l
  | callNode operands => retvalsOfArgs operands

/-- Those of the arguments of a call. -/
def retvalsOfArgs : List AstNode → List Kptr
  | [] => []
  | arg :: args => retvals arg ++ retvalsOfArgs args

end

mutual

/-- No return value is in the second operand of a sequence, and no address of an atomic store fails
to be generated again. -/
def located : AstNode → Bool
  | leaf | labelNode | returnVal _ => true
  | dataIndir l | getAddrOp l | setPIL l => located l
  | ifOp l r | whileOp l r | binary l r | storeOp l r => located l && located r
  | storeAtomicOp e r => located e && (located r && generatedAgain e)
  | ifElse l r e => located l && (located r && located e)
  | callNode operands => argsLocated operands
  | sequenceNode l r => located l && (located r && (retvals r).isEmpty)

/-- The same for the arguments of a call. -/
def argsLocated : List AstNode → Bool
  | [] => true
  | arg :: args => located arg && argsLocated args

end

/-- Return values at the splice point, if there is one for them. -/
def codeIf (p : Bool) (location : Option Kptr) (l : List Kptr) : Code :=
  if p && (location.isSome || l.isEmpty) then some (l.map fun v => (v, location.getD 0)) else none

variable {p q : Bool} {location : Option Kptr} {l l' : List Kptr}

theorem andThen_codeIf : andThen (codeIf p location l) (codeIf q location l') =
    codeIf (p && q) location (l ++ l') := by
  cases p <;> cases q <;> cases location <;> cases l <;> cases l' <;> simp [codeIf, andThen]

variable (location) in
theorem codeIf_none : codeIf p none l = codeIf (p && l.isEmpty) location l := by
  cases l <;> simp [codeIf]

mutual

/-- **The generator succeeds** exactly on such trees, with the return values in their order. -/
theorem generateCode_eq (location : Option Kptr) :
    ∀ t, generateCode location t = codeIf (located t) location (retvals t)
  | leaf | labelNode => by simp [generateCode, codeIf, located, retvals]
  | returnVal v => by cases location <;> simp [generateCode, codeIf, located, retvals]
  | dataIndir l | getAddrOp l | setPIL l => by
    simp only [generateCode, located, retvals, generateCode_eq location l]
  | ifOp l r | whileOp l r | binary l r => by
    simp only [generateCode, located, retvals, generateCode_eq location l,
      generateCode_eq location r, andThen_codeIf]
  | ifElse l r e => by
    simp only [generateCode, located, retvals, generateCode_eq location l,
      generateCode_eq location r, generateCode_eq location e, andThen_codeIf]
  | storeOp l r => by
    simp only [generateCode, located, retvals, generateCode_eq location l,
      generateCode_eq location r, andThen_codeIf, Bool.and_comm]
  | storeAtomicOp e r => by
    have hagain : (if e.generatedAgain then some [] else none) =
        codeIf e.generatedAgain location [] := by simp [codeIf]
    simp only [generateCode, located, retvals, generateCode_eq location e,
      generateCode_eq location r, hagain, andThen_codeIf, List.append_nil]
  | callNode operands => by
    simp only [generateCode, located, retvals, emitFuncCall_eq location operands]
  | sequenceNode l r => by
    simp only [generateCode, located, retvals, generateCode_eq location l, generateCode_eq none r,
      codeIf_none location, andThen_codeIf]

theorem emitFuncCall_eq (location : Option Kptr) :
    ∀ args, emitFuncCall location args = codeIf (argsLocated args) location (retvalsOfArgs args)
  | [] => by simp [emitFuncCall, codeIf, argsLocated, retvalsOfArgs]
  | arg :: args => by
    simp only [emitFuncCall, argsLocated, retvalsOfArgs, generateCode_eq location arg,
      emitFuncCall_eq location args, andThen_codeIf]

end

end AstNode

end Kerninst.Codegen
