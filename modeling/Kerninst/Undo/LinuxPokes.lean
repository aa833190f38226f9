import Kerninst.Undo.LoggedWrites

/-!
# Undoable pokes of instructions on Linux

Modelled from the pokes of `undoablePokeInfo1Loc` in
`kerninstd/kernelDriver/src/kernelDriver.C`, over the log of the Linux driver. The daemon keeps a
stack of values for each address, and the length that the first push at this address has given.
Only the first push and the last pop go through the driver's log; the others are plain writes.

The driver can undo everything at any moment as long as what it has logged are original bytes and
covers all bytes that are written. Two things stand against this, and a run in which neither
happens is a run of steps that are `Apart`:

* a push at an address that is new to the log covers bytes of another entry. The log then takes
  bytes for original that are not;
* a push at an address that is in the log is longer than the first one was. The driver is told
  to write all of it, and nobody has logged the rest.
-/

namespace Kerninst.Linux

open List Function Option
open OneWrite (undoes addr)

variable {p : Platform}

/-- `undoablePokeInfo1Loc`, the newest pair first. A pair is the value before and after. -/
structure UndoablePokeInfo1Loc where
  origval : CharPtr
  length : InsnLength
  howSoon : Nat
  replacementStack : List (CharPtr × CharPtr)

namespace UndoablePokeInfo1Loc

/-- The value on top of a stack: what is in memory, as far as the daemon knows. -/
def topOf (origval : CharPtr) (stack : List (CharPtr × CharPtr)) : CharPtr :=
  stack.head?.elim origval Prod.snd

def push (info : UndoablePokeInfo1Loc) (previousValue newValue : CharPtr) :
    Option UndoablePokeInfo1Loc := do
  check (SameBytes (topOf info.origval info.replacementStack) previousValue info.length.val)
  return { info with replacementStack := (previousValue, newValue) :: info.replacementStack }

def changeTopOfStack (info : UndoablePokeInfo1Loc) (newValueWasThis newValueIsNowThis : CharPtr) :
    Option UndoablePokeInfo1Loc :=
  match info.replacementStack with
  | [] => none
  | top :: stack => do
    check (SameBytes top.2 newValueWasThis info.length.val)
    return { info with replacementStack := (top.1, newValueIsNowThis) :: stack }

/-- Says also whether the stack is empty now. -/
def pop (info : UndoablePokeInfo1Loc) (previousCurrentValue newCurrentValue : CharPtr) :
    Option (UndoablePokeInfo1Loc × Bool) :=
  match info.replacementStack with
  | [] => none
  | top :: stack => do
    check (SameBytes top.2 previousCurrentValue info.length.val)
    check (SameBytes top.1 newCurrentValue info.length.val)
    check (SameBytes (topOf info.origval stack) newCurrentValue info.length.val)
    return ({ info with replacementStack := stack }, stack.isEmpty)

end UndoablePokeInfo1Loc

open UndoablePokeInfo1Loc (topOf)

/-- The daemon's pokes, the driver's log, and the memory that both write. -/
structure Pokes (p : Platform) where
  memory : BitVec p.width → Byte
  theUndoablePokes : BitVec p.width → Option UndoablePokeInfo1Loc
  log : List (OneWrite p.width)

namespace Pokes

def start (memory : BitVec p.width → Byte) : Pokes p := ⟨memory, fun _ => none, []⟩

/-- `ioctl(KERNINST_WRITE1INSN)` -/
def write1Insn (s : Pokes p) (addr : BitVec p.width) (val : CharPtr) (length : InsnLength) :
    Pokes p :=
  { s with memory := p.write1Insn s.memory addr val length }

def setInfo (s : Pokes p) (addr : BitVec p.width) (info : Option UndoablePokeInfo1Loc) : Pokes p :=
  { s with theUndoablePokes := Function.update s.theUndoablePokes addr info }

/-- The driver fills in the original value, unless it has an entry for this address. What the
daemon would then compare with was never set. -/
def checkOrigval (origval : Option CharPtr) (oldValue : CharPtr) (length : InsnLength) :
    Option Unit :=
  match origval with
  | none => none
  | some origval => check (SameBytes origval oldValue length.val)

def poke1LocUndoablePush (s : Pokes p) (addr : BitVec p.width) (oldValue newValue : CharPtr)
    (length : InsnLength) (howSoon : Nat) : Option (Pokes p) :=
  match s.theUndoablePokes addr with
  | some info => do
    let info ← info.push oldValue newValue
    return (s.write1Insn addr newValue length).setInfo addr (some info)
  | none => do
    let (origval, log, memory) ←
      lwPerformUndoableWrite p s.log s.memory addr length newValue howSoon
    checkOrigval origval oldValue length
    let info ← UndoablePokeInfo1Loc.push ⟨oldValue, length, howSoon, []⟩ oldValue newValue
    return setInfo ⟨memory, s.theUndoablePokes, log⟩ addr (some info)

/-- The driver is told of another `howSoon` only. -/
def changeHowSoon (s : Pokes p) (addr : BitVec p.width) (old new : Nat) :
    List (OneWrite p.width) :=
  if old ≠ new then lwChangeUndoableWriteHowSoon s.log addr new else s.log

def poke1LocUndoableChangeTopOfStack (s : Pokes p) (addr : BitVec p.width)
    (oldValue newValue : CharPtr) (howSoon : Nat) : Option (Pokes p) := do
  let info ← s.theUndoablePokes addr
  let log := s.changeHowSoon addr info.howSoon howSoon
  let changed ← { info with howSoon := howSoon }.changeTopOfStack oldValue newValue
  return (write1Insn ⟨s.memory, s.theUndoablePokes, log⟩ addr newValue info.length).setInfo addr
    (some changed)

/-- The last pop goes through the driver's log. -/
def popped (s : Pokes p) (addr : BitVec p.width) (popBackToThisValue : CharPtr)
    (info : UndoablePokeInfo1Loc) (empty : Bool) : Option (Pokes p) :=
  if empty then do
    check (SameBytes info.origval popBackToThisValue info.length.val)
    let undone := lwUndoWrite1Insn p s.log s.memory addr
    return setInfo ⟨undone.2, s.theUndoablePokes, undone.1⟩ addr none
  else
    some ((s.write1Insn addr popBackToThisValue info.length).setInfo addr (some info))

def undoPoke1LocPop (s : Pokes p) (addr : BitVec p.width)
    (currentValue popBackToThisValue : CharPtr) : Option (Pokes p) := do
  let info ← s.theUndoablePokes addr
  let (info, empty) ← info.pop currentValue popBackToThisValue
  s.popped addr popBackToThisValue info empty

inductive Op (p : Platform)
  | push (addr : BitVec p.width) (oldValue newValue : CharPtr) (length : InsnLength)
    (howSoon : Nat)
  | changeTopOfStack (addr : BitVec p.width) (oldValue newValue : CharPtr) (howSoon : Nat)
  | pop (addr : BitVec p.width) (currentValue popBackToThisValue : CharPtr)

def perform (s : Pokes p) : Op p → Option (Pokes p)
  | .push addr oldValue newValue length howSoon =>
    s.poke1LocUndoablePush addr oldValue newValue length howSoon
  | .changeTopOfStack addr oldValue newValue howSoon =>
    s.poke1LocUndoableChangeTopOfStack addr oldValue newValue howSoon
  | .pop addr currentValue popBackToThisValue =>
    s.undoPoke1LocPop addr currentValue popBackToThisValue

def run (s : Pokes p) (ops : List (Op p)) : Option (Pokes p) := ops.foldlM perform s

/-- `destroy_logged_writes`: what the memory is after the driver has undone everything. -/
def destroyLoggedWrites (s : Pokes p) : BitVec p.width → Byte :=
  Linux.destroyLoggedWrites p s.log s.memory

/-! ## The conditions -/

/-- The caller knows the values that it replaces: those on the stack, or those in memory if there
is no stack. -/
def Matching (s : Pokes p) : Op p → Prop
  | .push addr oldValue _ length _ =>
    match s.theUndoablePokes addr with
    | some info =>
      SameBytes (topOf info.origval info.replacementStack) oldValue info.length.val
    | none => SameBytes (readAt s.memory addr) oldValue length.val
  | .changeTopOfStack addr oldValue _ _ =>
    ∃ info, s.theUndoablePokes addr = some info ∧
      SameBytes (topOf info.origval info.replacementStack) oldValue info.length.val
  | .pop addr currentValue popBackToThisValue =>
    ∃ info top stack, s.theUndoablePokes addr = some info ∧
      info.replacementStack = top :: stack ∧
      SameBytes top.2 currentValue info.length.val ∧
      SameBytes top.1 popBackToThisValue info.length.val

/-- **A push is apart** from what is logged: at an address that is new to the log it covers no
byte of an entry, and at another address it is not longer than the first push was. -/
def Apart (s : Pokes p) : Op p → Prop
  | .push addr _ _ length _ =>
    match s.theUndoablePokes addr with
    | some info => length.val ≤ info.length.val
    | none => ∀ e ∈ s.log, ∀ a, e.Covers a → ¬ Covers addr length.val a
  | _ => True

/-! ## The invariant -/

/-- Each value on a stack is what the push above it has replaced. -/
def Chained (origval : CharPtr) (length : Nat) : List (CharPtr × CharPtr) → Prop
  | [] => True
  | pair :: stack => SameBytes (topOf origval stack) pair.1 length ∧ Chained origval length stack

/-- The daemon and the driver agree about the addresses and lengths. -/
structure Inv (orig : BitVec p.width → Byte) (s : Pokes p) : Prop where
  saves : Saves s.log orig s.memory
  logged : ∀ addr info, s.theUndoablePokes addr = some info →
    ∃ e ∈ s.log, e.addr = addr ∧ e.length = info.length
  known : ∀ e ∈ s.log, s.theUndoablePokes e.addr ≠ none
  nonempty : ∀ addr info, s.theUndoablePokes addr = some info → info.replacementStack ≠ []
  chained : ∀ addr info, s.theUndoablePokes addr = some info →
    Chained info.origval info.length.val info.replacementStack

variable {orig : BitVec p.width → Byte} {s s' : Pokes p} {addr : BitVec p.width}
  {log : List (OneWrite p.width)} {memory : BitVec p.width → Byte} {info : UndoablePokeInfo1Loc}

theorem inv_start (memory : BitVec p.width → Byte) : Inv memory (start memory) :=
  ⟨saves_nil memory, (fun _ _ h => nomatch h), (fun _ h => nomatch h), (fun _ _ h => nomatch h),
    fun _ _ h => nomatch h⟩

/-- An address gets another stack, and the log keeps all its entries. -/
theorem Inv.setInfo (hinv : Inv orig s) (hsaves : Saves log orig memory)
    (haddr : ∃ e ∈ log, e.addr = addr ∧ e.length = info.length)
    (hkept : ∀ e ∈ s.log, ∃ e' ∈ log, e'.addr = e.addr ∧ e'.length = e.length)
    (hold : ∀ e ∈ log, e.addr = addr ∨ ∃ e' ∈ s.log, e'.addr = e.addr)
    (hne : info.replacementStack ≠ [])
    (hchained : Chained info.origval info.length.val info.replacementStack) :
    Inv orig (Pokes.setInfo ⟨memory, s.theUndoablePokes, log⟩ addr (some info)) := by
  have hlookup : ∀ {a i}, update s.theUndoablePokes addr (some info) a = some i →
      (a = addr ∧ i = info) ∨ s.theUndoablePokes a = some i := by
    intro a i h
    by_cases ha : a = addr
    · subst ha
      rw [update_self] at h
      exact .inl ⟨rfl, (some.inj h).symm⟩
    · exact .inr (by rwa [update_of_ne ha] at h)
  refine ⟨hsaves, ?_, ?_, ?_, ?_⟩
  · intro a i h
    obtain ⟨rfl, rfl⟩ | h := hlookup h
    · exact haddr
    · obtain ⟨e, he, rfl, hlength⟩ := hinv.logged a i h
      obtain ⟨e', he', haddr', hlength'⟩ := hkept e he
      exact ⟨e', he', haddr', hlength'.trans hlength⟩
  · intro e he
    change update s.theUndoablePokes addr (some info) e.addr ≠ none
    by_cases ha : e.addr = addr
    · rw [ha, update_self]
      exact some_ne_none _
    · rw [update_of_ne ha]
      obtain ⟨e', he', heq⟩ := (hold e he).resolve_left ha
      exact heq ▸ hinv.known e' he'
  · intro a i h
    obtain ⟨rfl, rfl⟩ | h := hlookup h
    · exact hne
    · exact hinv.nonempty a i h
  · intro a i h
    obtain ⟨rfl, rfl⟩ | h := hlookup h
    · exact hchained
    · exact hinv.chained a i h

variable {length : InsnLength}

/-- A write inside the range of an entry. -/
theorem Inv.write (hinv : Inv orig s) {info info' : UndoablePokeInfo1Loc} {val : CharPtr}
    (hinfo : s.theUndoablePokes addr = some info)
    (hlog : log.map undoes = s.log.map undoes)
    (hlength : length.val ≤ info.length.val) (hsame : info'.length = info.length)
    (hne : info'.replacementStack ≠ [])
    (hchained : Chained info'.origval info'.length.val info'.replacementStack) :
    Inv orig ((write1Insn ⟨s.memory, s.theUndoablePokes, log⟩ addr val length).setInfo addr
      (some info')) := by
  have hsaves : Saves log orig s.memory := hinv.saves.of_map_undoes hlog
  have hkept : ∀ e ∈ s.log, ∃ e' ∈ log, e'.addr = e.addr ∧ e'.length = e.length := by
    intro e he
    obtain ⟨e', he', heq⟩ := exists_mem_of_map_undoes hlog.symm he
    obtain ⟨haddr, -, hlen⟩ := undoes_eq_iff.mp heq
    exact ⟨e', he', haddr, hlen⟩
  obtain ⟨e, he, rfl, hlen⟩ := hinv.logged addr info hinfo
  obtain ⟨e', he', haddr', hlen'⟩ := hkept e he
  have hwrite : Saves log orig (p.write1Insn s.memory e'.addr val length) :=
    hsaves.write he' (by rw [hlen', hlen]; exact hlength)
  rw [haddr'] at hwrite
  refine hinv.setInfo hwrite ⟨e', he', haddr', by rw [hlen', hlen, hsame]⟩ hkept ?_ hne hchained
  intro e₁ he₁
  obtain ⟨e₂, he₂, heq⟩ := exists_mem_of_map_undoes hlog he₁
  exact .inr ⟨e₂, he₂, (undoes_eq_iff.mp heq).1⟩

/-- **A push** keeps the invariant. -/
theorem Inv.push (hinv : Inv orig s) {oldValue newValue : CharPtr}
    {howSoon : Nat} (hapart : Apart s (.push addr oldValue newValue length howSoon))
    (h : s.poke1LocUndoablePush addr oldValue newValue length howSoon = some s') :
    Inv orig s' := by
  unfold poke1LocUndoablePush at h
  cases hinfo : s.theUndoablePokes addr with
  | some info =>
    simp only [Apart, hinfo] at hapart
    simp only [hinfo] at h
    obtain ⟨info', hpush, h⟩ := exists_of_bind h
    obtain ⟨_, hcheck, hinfo'⟩ := exists_of_bind hpush
    cases h
    cases hinfo'
    exact hinv.write hinfo rfl hapart rfl (cons_ne_nil _ _)
      ⟨check_eq_some.mp hcheck, hinv.chained addr info hinfo⟩
  | none =>
    simp only [Apart, hinfo] at hapart
    simp only [hinfo] at h
    obtain ⟨⟨origval, log, memory⟩, hlw, h⟩ := exists_of_bind h
    have hnew : ∀ e ∈ s.log, e.addr ≠ addr := fun e he heq => hinv.known e he (heq ▸ hinfo)
    obtain ⟨_, -, h⟩ := exists_of_bind h
    obtain ⟨info', hpush, h⟩ := exists_of_bind h
    obtain ⟨_, hcheck, hinfo'⟩ := exists_of_bind hpush
    cases h
    cases hinfo'
    have hany : ¬ s.log.any (fun e => e.addr = addr) = true := by
      simpa using hnew
    rw [lwPerformUndoableWrite, if_neg hany] at hlw
    split at hlw
    · exact nomatch hlw
    cases hlw
    refine hinv.setInfo (hinv.saves.append hnew hapart howSoon)
      ⟨_, mem_concat_self, rfl, rfl⟩ ?_ ?_ (cons_ne_nil _ _)
      ⟨check_eq_some.mp hcheck, trivial⟩
    · exact fun e he => ⟨e, mem_append_left _ he, rfl, rfl⟩
    · intro e he
      rcases mem_append.mp he with he | he
      · exact .inr ⟨e, he, rfl⟩
      · exact .inl (mem_singleton.mp he ▸ rfl)

theorem map_undoes_ite (s : Pokes p) (addr : BitVec p.width) (old new : Nat) :
    (s.changeHowSoon addr old new).map undoes = s.log.map undoes := by
  unfold changeHowSoon
  split
  · exact map_undoes_changeHowSoon ..
  · rfl

/-- **A change** of the top keeps the invariant. -/
theorem Inv.changeTopOfStack (hinv : Inv orig s) {oldValue newValue : CharPtr} {howSoon : Nat}
    (h : s.poke1LocUndoableChangeTopOfStack addr oldValue newValue howSoon = some s') :
    Inv orig s' := by
  obtain ⟨info, hinfo, h⟩ := exists_of_bind h
  obtain ⟨info', hchange, h⟩ := exists_of_bind h
  cases h
  unfold UndoablePokeInfo1Loc.changeTopOfStack at hchange
  have hchained := hinv.chained addr info hinfo
  split at hchange
  · exact nomatch hchange
  · rename_i top stack hstack
    obtain ⟨_, -, hinfo'⟩ := exists_of_bind hchange
    cases hinfo'
    rw [hstack] at hchained
    exact hinv.write hinfo (map_undoes_ite ..) (Nat.le_refl _) rfl (cons_ne_nil _ _)
      ⟨hchained.1, hchained.2⟩

/-- **The last pop** at an address. -/
theorem Inv.undo (hinv : Inv orig s) (hinfo : s.theUndoablePokes addr = some info) :
    Inv orig (Pokes.setInfo ⟨(lwUndoWrite1Insn p s.log s.memory addr).2, s.theUndoablePokes,
      (lwUndoWrite1Insn p s.log s.memory addr).1⟩ addr none) := by
  obtain ⟨e, he, rfl, -⟩ := hinv.logged addr info hinfo
  obtain ⟨log, memory, hundo, hperm, hsaves⟩ := hinv.saves.undo he
  have hnotMem : e.addr ∉ log.map addr :=
    (nodup_cons.mp ((hperm.map _).nodup_iff.mpr hinv.saves.nodup)).1
  have hlookup : ∀ {a i}, update s.theUndoablePokes e.addr none a = some i →
      a ≠ e.addr ∧ s.theUndoablePokes a = some i := by
    intro a i h
    by_cases ha : a = e.addr
    · subst ha
      rw [update_self] at h
      exact nomatch h
    · exact ⟨ha, by rwa [update_of_ne ha] at h⟩
  rw [hundo]
  refine ⟨hsaves, ?_, ?_, fun a i h => hinv.nonempty a i (hlookup h).2,
    fun a i h => hinv.chained a i (hlookup h).2⟩
  · intro a i h
    obtain ⟨ha, h⟩ := hlookup h
    obtain ⟨e', he', rfl, hlength⟩ := hinv.logged a i h
    rcases mem_cons.mp (hperm.symm.subset he') with rfl | hmem
    · exact absurd rfl ha
    · exact ⟨e', hmem, rfl, hlength⟩
  · intro e' he'
    have hne : e'.addr ≠ e.addr := fun heq => hnotMem (heq ▸ mem_map_of_mem he')
    change update s.theUndoablePokes e.addr none e'.addr ≠ none
    rw [update_of_ne hne]
    exact hinv.known e' (hperm.subset (mem_cons_of_mem _ he'))

/-- **A pop** keeps the invariant. -/
theorem Inv.pop (hinv : Inv orig s) {currentValue popBackToThisValue : CharPtr}
    (h : s.undoPoke1LocPop addr currentValue popBackToThisValue = some s') : Inv orig s' := by
  obtain ⟨info, hinfo, h⟩ := exists_of_bind h
  obtain ⟨⟨info', empty⟩, hpop, h⟩ := exists_of_bind h
  have hchained := hinv.chained addr info hinfo
  unfold UndoablePokeInfo1Loc.pop at hpop
  split at hpop
  · exact nomatch hpop
  rename_i top stack hstack
  obtain ⟨_, -, hpop⟩ := exists_of_bind hpop
  obtain ⟨_, -, hpop⟩ := exists_of_bind hpop
  obtain ⟨_, -, hpop⟩ := exists_of_bind hpop
  cases hpop
  rw [hstack] at hchained
  cases stack with
  | nil =>
    obtain ⟨_, -, h⟩ := exists_of_bind h
    obtain rfl := some.inj h
    exact hinv.undo hinfo
  | cons pair stack =>
    obtain rfl := some.inj h
    exact hinv.write hinfo rfl (Nat.le_refl _) rfl (cons_ne_nil _ _) hchained.2

/-- **One operation** that is apart keeps the invariant. -/
theorem Inv.perform (hinv : Inv orig s) {op : Op p} (hapart : Apart s op)
    (h : s.perform op = some s') : Inv orig s' := by
  cases op with
  | push addr oldValue newValue length howSoon => exact hinv.push hapart h
  | changeTopOfStack addr oldValue newValue howSoon => exact hinv.changeTopOfStack h
  | pop addr currentValue popBackToThisValue => exact hinv.pop h

/-! ## No assertion fails -/

/-- **A push** that matches goes through, unless the log is full. -/
theorem Inv.push_eq_none (hinv : Inv orig s) {oldValue newValue : CharPtr}
    {howSoon : Nat} (hmatching : Matching s (.push addr oldValue newValue length howSoon))
    (h : s.poke1LocUndoablePush addr oldValue newValue length howSoon = none) :
    s.log.length = maxWrites := by
  by_contra hroom
  unfold poke1LocUndoablePush at h
  cases hinfo : s.theUndoablePokes addr with
  | some info =>
    simp only [Matching, hinfo] at hmatching
    simp only [hinfo, UndoablePokeInfo1Loc.push, check_pos hmatching] at h
    exact nomatch h
  | none =>
    simp only [Matching, hinfo] at hmatching
    have hnew : ∀ e ∈ s.log, e.addr ≠ addr := fun e he heq => hinv.known e he (heq ▸ hinfo)
    have hany : ¬ s.log.any (fun e => e.addr = addr) = true := by
      simpa using hnew
    have hself : SameBytes (topOf oldValue []) oldValue length.val := fun _ _ => rfl
    simp only [hinfo, lwPerformUndoableWrite, if_neg hany, if_neg hroom, run_do, checkOrigval,
      check_pos hmatching, UndoablePokeInfo1Loc.push, check_pos hself] at h
    exact nomatch h

/-- **One operation** that matches goes through, unless the log is full. -/
theorem Inv.perform_eq_none (hinv : Inv orig s) {op : Op p} (hmatching : Matching s op)
    (h : s.perform op = none) : s.log.length = maxWrites := by
  cases op with
  | push addr oldValue newValue length howSoon => exact hinv.push_eq_none hmatching h
  | changeTopOfStack addr oldValue newValue howSoon =>
    obtain ⟨info, hinfo, hsame⟩ := hmatching
    obtain ⟨pair, stack, hstack⟩ := exists_cons_of_ne_nil (hinv.nonempty addr info hinfo)
    rw [hstack] at hsame
    have htop : SameBytes pair.2 oldValue info.length.val := hsame
    simp only [Pokes.perform, poke1LocUndoableChangeTopOfStack, hinfo, run_do,
      UndoablePokeInfo1Loc.changeTopOfStack, hstack, check_pos htop] at h
    exact nomatch h
  | pop addr currentValue popBackToThisValue =>
    obtain ⟨info, top, stack, hinfo, hstack, hcurrent, hback⟩ := hmatching
    have hchained := hinv.chained addr info hinfo
    rw [hstack] at hchained
    have hbelow : SameBytes (topOf info.origval stack) popBackToThisValue info.length.val :=
      hchained.1.trans hback
    simp only [Pokes.perform, undoPoke1LocPop, hinfo, run_do, UndoablePokeInfo1Loc.pop, hstack,
      check_pos hcurrent, check_pos hback, check_pos hbelow, popped] at h
    cases stack with
    | nil =>
      have horig : SameBytes info.origval popBackToThisValue info.length.val := hbelow
      simp only [isEmpty_nil, if_true, check_pos horig, bind_some] at h
      exact nomatch h
    | cons pair stack => exact nomatch h

/-! ## Whole runs -/

/-- **Everything can be undone at any moment.** Take a run in which all calls match and are apart.
After each of its beginnings the driver can restore every byte of memory. The run ends early only
if the log gets full. -/
theorem restores_of_apart (orig : BitVec p.width → Byte) (ops : List (Op p))
    (hmatching : AllSteps perform Matching (start orig) ops)
    (hapart : AllSteps perform Apart (start orig) ops) :
    (∀ pre s, pre <+: ops → (start orig).run pre = some s → s.destroyLoggedWrites = orig) ∧
      ((start orig).run ops = none → ∃ pre s, pre <+: ops ∧ (start orig).run pre = some s ∧
        s.log.length = maxWrites) := by
  have hinv : ∀ pre s, pre <+: ops → (start orig).run pre = some s → Inv orig s := by
    rintro pre s ⟨post, rfl⟩ hrun
    exact AllSteps.keeps (fun _ _ _ hinv hop h => hinv.perform hop h) hapart.of_append
      (inv_start orig) hrun
  refine ⟨fun pre s hpre hrun => (hinv pre s hpre hrun).saves.destroyLoggedWrites, fun hnone => ?_⟩
  obtain ⟨pre, op, s, ⟨post, hops⟩, hrun, hfails⟩ := exists_of_foldlM_eq_none hnone
  rw [append_assoc] at hops
  have hpre : pre <+: ops := ⟨_, hops⟩
  have hop : Matching s op := by
    rw [← hops] at hmatching
    exact (hmatching.of_foldlM hrun).1
  exact ⟨pre, s, hpre, hrun, (hinv pre s hpre hrun).perform_eq_none hop hfails⟩

/-- Some bytes of text. -/
def sampleText : BitVec i386.width → Byte := fun a => a.setWidth 8

def fiveBytes : InsnLength := ⟨5, by decide, by decide⟩

def twoBytes : InsnLength := ⟨2, by decide, by decide⟩

/-- A jump over five bytes, a shorter one over its beginning, and a pop. -/
def sampleOps : List (Op i386) :=
  [.push 0x1000#32 (readAt sampleText 0x1000#32) (fun _ => 0xE9) fiveBytes 0,
    .push 0x1000#32 (fun _ => 0xE9) (fun _ => 0xEB) twoBytes 0,
    .pop 0x1000#32 (fun _ => 0xEB) (fun _ => 0xE9)]

theorem restores_of_apart_sample :
    ∃ s, (start sampleText).run sampleOps = some s ∧ s.memory 0x1003#32 = 0xE9 ∧
      s.destroyLoggedWrites = sampleText := by
  have hmatching : AllSteps perform Matching (start sampleText) sampleOps := by
    refine ⟨?_, fun s₁ h₁ => ?_⟩
    · exact fun _ _ => rfl
    obtain rfl := some.inj h₁
    refine ⟨fun _ _ => rfl, fun s₂ h₂ => ?_⟩
    obtain rfl := some.inj h₂
    exact ⟨⟨_, _, _, rfl, rfl, fun _ _ => rfl, fun _ _ => rfl⟩, fun _ _ => trivial⟩
  have hapart : AllSteps perform Apart (start sampleText) sampleOps := by
    refine ⟨?_, fun s₁ h₁ => ?_⟩
    · exact fun e he => nomatch he
    obtain rfl := some.inj h₁
    have hlength : twoBytes.val ≤ fiveBytes.val := by decide
    exact ⟨hlength, fun _ _ => ⟨trivial, fun _ _ => trivial⟩⟩
  have hrun : ∃ s, (start sampleText).run sampleOps = some s ∧ s.memory 0x1003#32 = 0xE9 :=
    ⟨_, rfl, by decide⟩
  obtain ⟨s, hs, hbyte⟩ := hrun
  exact ⟨s, hs, hbyte, (restores_of_apart sampleText sampleOps hmatching hapart).1 _ s
    prefix_rfl hs⟩

/-- Five bytes, and then two of them. -/
def overlappingOps : List (Op i386) :=
  [.push 0x1000#32 (readAt sampleText 0x1000#32) (fun _ => 0xE9) fiveBytes 0,
    .push 0x1002#32 (fun _ => 0xE9) (fun _ => 0xEB) twoBytes 0]

/-- Two bytes, and then five at the same address. -/
def longerOps : List (Op i386) :=
  [.push 0x1000#32 (readAt sampleText 0x1000#32) (fun _ => 0xEB) twoBytes 0,
    .push 0x1000#32 (fun _ => 0xEB) (fun _ => 0xE9) fiveBytes 0]

/-- The second entry of the log is restored after the first, and holds bytes of the first push.
Of a longer push the last bytes are not logged at all. -/
theorem text_is_not_restored :
    (AllSteps perform Matching (start sampleText) overlappingOps ∧
        ∃ s, (start sampleText).run overlappingOps = some s ∧ sampleText 0x1002#32 = 0x02 ∧
          s.destroyLoggedWrites 0x1002#32 = 0xE9) ∧
      AllSteps perform Matching (start sampleText) longerOps ∧
        ∃ s, (start sampleText).run longerOps = some s ∧ sampleText 0x1003#32 = 0x03 ∧
          s.destroyLoggedWrites 0x1003#32 = 0xE9 := by
  refine ⟨⟨?_, _, rfl, rfl, by decide⟩, ?_, _, rfl, rfl, by decide⟩
  · refine ⟨fun _ _ => rfl, fun s₁ h₁ => ?_⟩
    obtain rfl := some.inj h₁
    have hsame : SameBytes (readAt (i386.write1Insn sampleText 0x1000#32 (fun _ => 0xE9) fiveBytes)
        0x1002#32) (fun _ => 0xE9) twoBytes.val := by decide
    exact ⟨hsame, fun _ _ => trivial⟩
  · refine ⟨fun _ _ => rfl, fun s₁ h₁ => ?_⟩
    obtain rfl := some.inj h₁
    exact ⟨fun _ _ => rfl, fun _ _ => trivial⟩

end Pokes

end Kerninst.Linux
