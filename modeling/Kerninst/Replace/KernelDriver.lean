import Kerninst.Sparc.Machine

/-!
# Undoable writes to kernel memory

The daemon keeps a stack of replacements for each word of the kernel that it has changed, and
every change goes through it: a push changes the word, a pop changes it back, and both assert that
the caller knows the present value.

`KernelDriver.patchedWith` is the abstract view. A set of patches says which words are changed at
present, and to what; laid over a driver, it gives the driver after one push for each of them.
A push adds a patch (`patchedWith_push`) and a pop removes it (`patchedWith_pop`), whatever else
was done in between and however deep the stacks were to begin with.
-/

namespace Kerninst

open List Function

/-- `undoablePokeInfo1Loc`, with the most recent replacement first. A replacement is the old value
and the one that it was changed to. -/
structure UndoablePokeInfo where
  origval : Word
  howSoon : Nat
  replacementStack : List (Word × Word)
deriving DecidableEq

namespace UndoablePokeInfo

/-- The value at the top of the stack, or the original one. -/
def current (info : UndoablePokeInfo) : Word :=
  match info.replacementStack with
  | [] => info.origval
  | top :: _ => top.2

def push (info : UndoablePokeInfo) (previousValue newValue : Word) : Option UndoablePokeInfo := do
  check (info.current = previousValue)
  pure { info with replacementStack := (previousValue, newValue) :: info.replacementStack }

def changeTopOfStack (info : UndoablePokeInfo) (wasThis isNowThis : Word) :
    Option UndoablePokeInfo :=
  match info.replacementStack with
  | [] => none
  | top :: rest => do
    check (top.2 = wasThis)
    pure { info with replacementStack := (top.1, isNowThis) :: rest }

/-- Also returns whether the stack is now empty. -/
def pop (info : UndoablePokeInfo) (previousCurrentValue newCurrentValue : Word) :
    Option (UndoablePokeInfo × Bool) :=
  match info.replacementStack with
  | [] => none
  | top :: rest => do
    check (top.2 = previousCurrentValue)
    check (top.1 = newCurrentValue)
    let popped := { info with replacementStack := rest }
    check (popped.current = newCurrentValue)
    pure (popped, rest.isEmpty)

/-- **A push is undone by a pop** that names the same two values. -/
theorem pop_of_push {info info' : UndoablePokeInfo} {previousValue newValue : Word}
    (h : info.push previousValue newValue = some info') :
    info'.pop newValue previousValue = some (info, info.replacementStack.isEmpty) := by
  obtain ⟨_, hcurrent, hinfo⟩ := exists_of_bind h
  obtain rfl := Option.some.inj hinfo
  have hpopped : check (info.current = previousValue) = some () :=
    check_pos (check_eq_some.mp hcurrent)
  cases info
  simp [pop, check_pos, hpopped]

end UndoablePokeInfo

/-- Kernel memory, and what is known about the words that were changed. -/
structure KernelDriver where
  memory : Kptr → Word
  theUndoablePokes : Kptr → Option UndoablePokeInfo

namespace KernelDriver

def peek1Word (d : KernelDriver) (addr : Kptr) : Word := d.memory addr

/-- Write a word, and change what is known about it. -/
def write (d : KernelDriver) (addr : Kptr) (value : Word) (info : Option UndoablePokeInfo) :
    KernelDriver where
  memory := Function.update d.memory addr value
  theUndoablePokes := Function.update d.theUndoablePokes addr info

def poke1WordUndoablePush (d : KernelDriver) (addr : Kptr) (oldValue newValue : Word)
    (howSoon : Nat) : Option KernelDriver := do
  let theInfo := (d.theUndoablePokes addr).getD ⟨oldValue, howSoon, []⟩
  let theInfo ← theInfo.push oldValue newValue
  pure (d.write addr newValue (some theInfo))

def poke1WordUndoableChangeTopOfStack (d : KernelDriver) (addr : Kptr) (oldValue newValue : Word)
    (howSoon : Nat) : Option KernelDriver := do
  let info ← d.theUndoablePokes addr
  let info ← { info with howSoon := howSoon }.changeTopOfStack oldValue newValue
  pure (d.write addr newValue (some info))

def undoPoke1WordPop (d : KernelDriver) (addr : Kptr)
    (currentValueInMem popBackToThisValue : Word) : Option KernelDriver := do
  let info ← d.theUndoablePokes addr
  let popped ← info.pop currentValueInMem popBackToThisValue
  pure (d.write addr popBackToThisValue (if popped.2 then none else some popped.1))

/-- What is known about each word is right, and only changed words are recorded. -/
def Coherent (d : KernelDriver) : Prop :=
  ∀ addr info, d.theUndoablePokes addr = some info →
    info.replacementStack ≠ [] ∧ info.current = d.memory addr

/-! ## Patches -/

/-- The words that are changed at present, with their `howSoon`. -/
abbrev Patches := Kptr → Option (Word × Nat)

/-- What is known about a word after one more push. -/
def pushed (before : Option UndoablePokeInfo) (oldValue newValue : Word) (howSoon : Nat) :
    UndoablePokeInfo :=
  let info := before.getD ⟨oldValue, howSoon, []⟩
  { info with replacementStack := (oldValue, newValue) :: info.replacementStack }

/-- The driver after one push for each patch. -/
def patchedWith (d : KernelDriver) (p : Patches) : KernelDriver where
  memory addr := (p addr).elim (d.memory addr) Prod.fst
  theUndoablePokes addr := (p addr).elim (d.theUndoablePokes addr) fun q =>
    some (pushed (d.theUndoablePokes addr) (d.memory addr) q.1 q.2)

variable {d : KernelDriver} {p q : Patches} {addr : Kptr} {value : Word} {howSoon : Nat}

theorem patchedWith_memory_of_none (h : p addr = none) :
    (d.patchedWith p).memory addr = d.memory addr := by
  simp [patchedWith, h]

theorem patchedWith_memory_of_some (h : p addr = some (value, howSoon)) :
    (d.patchedWith p).memory addr = value := by
  simp [patchedWith, h]

theorem patchedWith_memory_congr (h : p addr = q addr) :
    (d.patchedWith p).memory addr = (d.patchedWith q).memory addr := by
  simp [patchedWith, h]

theorem patchedWith_memory_map : ∀ {addrs : List Kptr} {ws : List Word},
    addrs.map p = ws.map (fun w => some (w, howSoon)) →
      addrs.map (d.patchedWith p).memory = ws := by
  intro addrs
  induction addrs with
  | nil =>
    intro ws h
    exact (map_eq_nil_iff.mp h.symm).symm
  | cons addr addrs ih =>
    intro ws h
    cases ws with
    | nil => cases h
    | cons w ws =>
      obtain ⟨hw, hws⟩ := cons.inj h
      rw [map_cons, patchedWith_memory_of_some hw, ih hws]

/-- Writing one word of a patched driver changes its patch. -/
theorem patchedWith_write (change : Option (Word × Nat)) :
    (d.patchedWith p).write addr (change.elim (d.memory addr) Prod.fst)
        (change.elim (d.theUndoablePokes addr) fun q =>
          some (pushed (d.theUndoablePokes addr) (d.memory addr) q.1 q.2)) =
      d.patchedWith (update p addr change) := by
  rw [write, patchedWith, patchedWith, mk.injEq]
  constructor
  · funext a
    rcases eq_or_ne a addr with rfl | hne
    · simp
    · simp [update_of_ne hne]
  · funext a
    rcases eq_or_ne a addr with rfl | hne
    · simp
    · simp [update_of_ne hne]

theorem Coherent.current_getD (hd : d.Coherent) (addr : Kptr) (howSoon : Nat) :
    ((d.theUndoablePokes addr).getD ⟨d.memory addr, howSoon, []⟩).current = d.memory addr := by
  cases hinfo : d.theUndoablePokes addr with
  | none => rfl
  | some info => exact (hd addr info hinfo).2

/-- **A push is a patch.** -/
theorem patchedWith_push (hd : d.Coherent) (hp : p addr = none) (value : Word) (howSoon : Nat) :
    (d.patchedWith p).poke1WordUndoablePush addr (d.memory addr) value howSoon =
      some (d.patchedWith (update p addr (some (value, howSoon)))) := by
  have hlog : (d.patchedWith p).theUndoablePokes addr = d.theUndoablePokes addr := by
    simp [patchedWith, hp]
  simp only [poke1WordUndoablePush, hlog, UndoablePokeInfo.push,
    check_pos (hd.current_getD addr howSoon), run_do]
  exact congrArg some (patchedWith_write (some (value, howSoon)))

/-- **A pop takes a patch away.** -/
theorem patchedWith_pop (hd : d.Coherent) (hp : p addr = some (value, howSoon)) :
    (d.patchedWith p).undoPoke1WordPop addr value (d.memory addr) =
      some (d.patchedWith (update p addr none)) := by
  have hlog : (d.patchedWith p).theUndoablePokes addr =
      some (pushed (d.theUndoablePokes addr) (d.memory addr) value howSoon) := by
    simp [patchedWith, hp]
  have hpush : ((d.theUndoablePokes addr).getD ⟨d.memory addr, howSoon, []⟩).push
      (d.memory addr) value =
      some (pushed (d.theUndoablePokes addr) (d.memory addr) value howSoon) := by
    rw [UndoablePokeInfo.push, check_pos (hd.current_getD addr howSoon)]
    rfl
  -- the entry is dropped exactly if there was none before the push
  have hdrop : (if ((d.theUndoablePokes addr).getD
        ⟨d.memory addr, howSoon, []⟩).replacementStack.isEmpty then none
      else some ((d.theUndoablePokes addr).getD ⟨d.memory addr, howSoon, []⟩)) =
      d.theUndoablePokes addr := by
    cases hinfo : d.theUndoablePokes addr with
    | none => rfl
    | some info => simp [(hd addr info hinfo).1]
  simp only [undoPoke1WordPop, hlog, run_do, UndoablePokeInfo.pop_of_push hpush, hdrop]
  exact congrArg some (patchedWith_write none)

/-! ## One word -/

/-- What is known about a word is right. -/
def KnownAt (d : KernelDriver) (addr : Kptr) : Prop :=
  ∀ howSoon, ((d.theUndoablePokes addr).getD ⟨d.memory addr, howSoon, []⟩).current = d.memory addr

/-- One word was changed, and can be changed back. -/
structure Replaced (d : KernelDriver) (orig : Kptr → Word) (addr : Kptr) (value : Word) :
    Prop where
  memory : d.memory = Function.update orig addr value
  top : ∃ info rest, d.theUndoablePokes addr = some info ∧
    info.replacementStack = (orig addr, value) :: rest ∧
    UndoablePokeInfo.current { info with replacementStack := rest } = orig addr

theorem KnownAt.push (hd : d.KnownAt addr) (value : Word) (howSoon : Nat) :
    ∃ d', d.poke1WordUndoablePush addr (d.memory addr) value howSoon = some d' ∧
      d'.Replaced d.memory addr value := by
  refine ⟨d.write addr value
    (some (pushed (d.theUndoablePokes addr) (d.memory addr) value howSoon)),
    ?_, rfl, _, _, update_self .., rfl, hd howSoon⟩
  simp only [poke1WordUndoablePush, UndoablePokeInfo.push, check_pos (hd howSoon), run_do]
  rfl

theorem Replaced.changeTop {orig : Kptr → Word} (hd : d.Replaced orig addr value)
    (newValue : Word) (howSoon : Nat) :
    ∃ d', d.poke1WordUndoableChangeTopOfStack addr value newValue howSoon = some d' ∧
      d'.Replaced orig addr newValue := by
  obtain ⟨info, rest, hinfo, hstack, hcurrent⟩ := hd.top
  refine ⟨d.write addr newValue (some ⟨info.origval, howSoon, (orig addr, newValue) :: rest⟩),
    ?_, ?_, _, _, update_self .., rfl, hcurrent⟩
  · simp [poke1WordUndoableChangeTopOfStack, hinfo, UndoablePokeInfo.changeTopOfStack, hstack,
      check_pos]
  · simp [write, hd.memory]

theorem Replaced.pop {orig : Kptr → Word} (hd : d.Replaced orig addr value) :
    ∃ d', d.undoPoke1WordPop addr value (orig addr) = some d' ∧ d'.memory = orig ∧
      d'.KnownAt addr := by
  obtain ⟨info, rest, hinfo, hstack, hcurrent⟩ := hd.top
  refine ⟨d.write addr (orig addr)
    (if rest.isEmpty then none else some { info with replacementStack := rest }), ?_, ?_,
    fun howSoon => ?_⟩
  · simp [undoPoke1WordPop, hinfo, UndoablePokeInfo.pop, hstack, check_pos, check_pos hcurrent]
  · simp [write, hd.memory]
  · simp only [write, update_self]
    cases rest with
    | nil => rfl
    | cons top rest => exact hcurrent

/-! ## Several words in a row -/

/-- The addresses of `n` words in a row. -/
def wordsFrom : Kptr → Nat → List Kptr
  | _, 0 => []
  | addr, n + 1 => addr :: wordsFrom (addr + 4) n

/-- Push the old and new values of words in a row. -/
def pushWords (d : KernelDriver) (addr : Kptr) : List (Word × Word) → Option KernelDriver
  | [] => some d
  | word :: rest => do
    let d ← d.poke1WordUndoablePush addr word.1 word.2 1
    d.pushWords (addr + 4) rest

/-- Pop words in a row back to the given values. -/
def popWords (d : KernelDriver) (addr : Kptr) : List Word → Option KernelDriver
  | [] => some d
  | orig :: rest => do
    let d ← d.undoPoke1WordPop addr (d.peek1Word addr) orig
    d.popWords (addr + 4) rest

/-- **Writing words that are not patched** patches them, and nothing else. -/
theorem patchedWith_pushWords (hd : d.Coherent) (ws : List Word) :
    ∀ {addr : Kptr} {p : Patches}, (wordsFrom addr ws.length).Nodup →
      (∀ a ∈ wordsFrom addr ws.length, p a = none) →
      ∃ q, (d.patchedWith p).pushWords addr (((wordsFrom addr ws.length).map d.memory).zip ws) =
          some (d.patchedWith q) ∧
        (wordsFrom addr ws.length).map q = ws.map (fun w => some (w, 1)) ∧
        ∀ a, a ∉ wordsFrom addr ws.length → q a = p a := by
  induction ws with
  | nil =>
    intro addr p _ _
    exact ⟨p, rfl, rfl, fun a _ => rfl⟩
  | cons w ws ih =>
    intro addr p hnodup hnone
    obtain ⟨hnotMem, hnodup⟩ := nodup_cons.mp hnodup
    have hrest : ∀ a ∈ wordsFrom (addr + 4) ws.length, update p addr (some (w, 1)) a = none := by
      intro a ha
      rw [update_of_ne (ne_of_mem_of_not_mem ha hnotMem)]
      exact hnone a (mem_cons_of_mem _ ha)
    obtain ⟨q, hpush, hq, hsame⟩ := ih hnodup hrest
    refine ⟨q, ?_, ?_, fun a ha => ?_⟩
    · simp only [length_cons, wordsFrom, map_cons, zip_cons_cons, pushWords,
        patchedWith_push hd (hnone addr (mem_cons_self ..)), run_do]
      exact hpush
    · rw [length_cons, wordsFrom, map_cons, map_cons, hq, hsame addr hnotMem, update_self]
    · obtain ⟨hne, ha⟩ := ne_and_not_mem_of_not_mem_cons ha
      rw [hsame a ha, update_of_ne hne]

/-- **Popping words that are patched** takes their patches away, and nothing else. -/
theorem patchedWith_popWords (hd : d.Coherent) (n : Nat) :
    ∀ {addr : Kptr} {p : Patches}, (wordsFrom addr n).Nodup →
      (∀ a ∈ wordsFrom addr n, ∃ patch, p a = some patch) →
      ∃ q, (d.patchedWith p).popWords addr ((wordsFrom addr n).map d.memory) =
          some (d.patchedWith q) ∧
        (∀ a ∈ wordsFrom addr n, q a = none) ∧ ∀ a, a ∉ wordsFrom addr n → q a = p a := by
  induction n with
  | zero =>
    intro addr p _ _
    exact ⟨p, rfl, fun a ha => (not_mem_nil ha).elim, fun a _ => rfl⟩
  | succ n ih =>
    intro addr p hnodup hsome
    obtain ⟨hnotMem, hnodup⟩ := nodup_cons.mp hnodup
    obtain ⟨⟨value, howSoon⟩, hpatch⟩ := hsome addr (mem_cons_self ..)
    have hrest : ∀ a ∈ wordsFrom (addr + 4) n, ∃ patch, update p addr none a = some patch := by
      intro a ha
      rw [update_of_ne (ne_of_mem_of_not_mem ha hnotMem)]
      exact hsome a (mem_cons_of_mem _ ha)
    obtain ⟨q, hpop, hq, hsame⟩ := ih hnodup hrest
    refine ⟨q, ?_, fun a ha => ?_, fun a ha => ?_⟩
    · simp only [wordsFrom, map_cons, popWords, peek1Word, patchedWith_memory_of_some hpatch,
        patchedWith_pop hd hpatch, run_do]
      exact hpop
    · rcases mem_cons.mp ha with rfl | ha
      · rw [hsame a hnotMem, update_self]
      · exact hq a ha
    · obtain ⟨hne, ha⟩ := ne_and_not_mem_of_not_mem_cons ha
      rw [hsame a ha, update_of_ne hne]

end KernelDriver

end Kerninst
