import Kerninst.Replace.KernelDriver
import Kerninst.Undo.LoggedMem

/-!
# Undoable pokes on Solaris

The daemon keeps a stack of replacements for each word that it has changed; the driver keeps the
original values. The driver only hears of the first push of a word, of the pop that empties its
stack, and of changes of priority: all other writes go past it.

`Coupled` relates the two, and both to the abstract `Nested`, in which a push saves the value of
a word and a pop restores the newest value saved. Every operation keeps it, if the caller passes
the values that the routines assert (`Nests` has what follows). `Coupled.perform` also says that
all of this refines `KernelDriver`, which knows nothing of the driver's log.
-/

namespace Kerninst.Solaris

open List Function Option UndoablePokeInfo Nested
open Function (update)

/-- The kernel's memory, the daemon's stacks and the driver's log. -/
structure Pokes where
  memory : Kptr → Word
  theUndoablePokes : Kptr → Option UndoablePokeInfo
  log : LoggedWrites

namespace Pokes

/-- Nothing was poked yet. -/
def start (memory : Kptr → Word) : Pokes := ⟨memory, fun _ => none, LoggedWrites.empty⟩

/-- The daemon's view, without the log. -/
def kernelDriver (s : Pokes) : KernelDriver := ⟨s.memory, s.theUndoablePokes⟩

def poke1WordPermanent (s : Pokes) (address : Kptr) (value : Word) : Pokes :=
  { s with memory := Function.update s.memory address value }

def setInfo (s : Pokes) (addr : Kptr) (info : Option UndoablePokeInfo) : Pokes :=
  { s with theUndoablePokes := Function.update s.theUndoablePokes addr info }

section

variable (isInNucleus : Kptr → Bool)

def poke1WordUndoablePush (s : Pokes) (addr : Kptr) (oldValue newValue : Word)
    (howSoon : Nat) : Option Pokes :=
  match s.theUndoablePokes addr with
  | some theInfo => do
    -- the driver only wants to be informed of the first change
    let theInfo ← theInfo.push oldValue newValue
    pure ((s.poke1WordPermanent addr newValue).setInfo addr (some theInfo))
  | none => do
    let done ← s.log.write1UndoableAlignedWord s.memory addr (isInNucleus addr) newValue howSoon
    check (done.2.2 ≠ -1)
    let theInfo ← UndoablePokeInfo.push ⟨oldValue, howSoon, []⟩ oldValue newValue
    pure (setInfo ⟨done.2.1, s.theUndoablePokes, done.1⟩ addr (some theInfo))

def poke1WordUndoableChangeTopOfStack (s : Pokes) (addr : Kptr) (oldValue newValue : Word)
    (howSoon : Nat) : Option Pokes := do
  let info ← s.theUndoablePokes addr
  if info.howSoon = howSoon then do
    let info ← info.changeTopOfStack oldValue newValue
    pure ((s.poke1WordPermanent addr newValue).setInfo addr (some info))
  else do
    let log ← s.log.changeUndoWriteWordHowSoon addr howSoon
    let info ← { info with howSoon := howSoon }.changeTopOfStack oldValue newValue
    pure (({ s with log := log }.poke1WordPermanent addr newValue).setInfo addr (some info))

/-- The end of `undoPoke1WordPop`: the driver is told if the stack is empty. -/
def popped (s : Pokes) (addr : Kptr) (popBackToThisValue : Word) (info : UndoablePokeInfo)
    (nowEmpty : Bool) : Option Pokes :=
  if nowEmpty then do
    check (info.origval = popBackToThisValue)
    let done ← s.log.undoWriteWordCommon s.memory addr popBackToThisValue (isInNucleus addr)
    check (done.2.2 ≠ -1)
    pure (setInfo ⟨done.2.1, s.theUndoablePokes, done.1⟩ addr none)
  else some ((s.poke1WordPermanent addr popBackToThisValue).setInfo addr (some info))

def undoPoke1WordPop (s : Pokes) (addr : Kptr) (currentValueInMem popBackToThisValue : Word) :
    Option Pokes := do
  let info ← s.theUndoablePokes addr
  let rest ← info.pop currentValueInMem popBackToThisValue
  s.popped isInNucleus addr popBackToThisValue rest.1 rest.2

inductive Op
  | push (addr : Kptr) (oldValue newValue : Word) (howSoon : Nat)
  | changeTopOfStack (addr : Kptr) (oldValue newValue : Word) (howSoon : Nat)
  | pop (addr : Kptr) (currentValueInMem popBackToThisValue : Word)

def perform (s : Pokes) : Op → Option Pokes
  | .push addr oldValue newValue howSoon =>
    s.poke1WordUndoablePush isInNucleus addr oldValue newValue howSoon
  | .changeTopOfStack addr oldValue newValue howSoon =>
    s.poke1WordUndoableChangeTopOfStack addr oldValue newValue howSoon
  | .pop addr currentValueInMem popBackToThisValue =>
    s.undoPoke1WordPop isInNucleus addr currentValueInMem popBackToThisValue

def run (s : Pokes) (ops : List Op) : Option Pokes := ops.foldlM (perform isInNucleus) s

end

/-! ## What pokes are for -/

/-- A push saves the value of a word, and a pop restores it. -/
def Op.nested : Op → Nested.Op Kptr Word
  | .push addr _ newValue _ => .push addr newValue
  | .changeTopOfStack addr _ newValue _ => .change addr newValue
  | .pop addr _ _ => .pop addr

/-- The operation of a daemon that knows nothing of the log. -/
def Op.onKernelDriver (d : KernelDriver) : Op → Option KernelDriver
  | .push addr oldValue newValue howSoon => d.poke1WordUndoablePush addr oldValue newValue howSoon
  | .changeTopOfStack addr oldValue newValue howSoon =>
    d.poke1WordUndoableChangeTopOfStack addr oldValue newValue howSoon
  | .pop addr currentValueInMem popBackToThisValue =>
    d.undoPoke1WordPop addr currentValueInMem popBackToThisValue

/-- The caller passes what the routines assert: the value in memory, a priority, and for a pop the
value that the word had before its push. -/
def Proper (n : Nested Kptr Word) : Op → Prop
  | .push addr oldValue _ howSoon =>
      addr.toNat % 4 = 0 ∧ oldValue = n.memory addr ∧ howSoon ≤ 1
  | .changeTopOfStack addr oldValue _ howSoon =>
      n.saved addr ≠ [] ∧ oldValue = n.memory addr ∧ howSoon ≤ 1
  | .pop addr currentValueInMem popBackToThisValue =>
      currentValueInMem = n.memory addr ∧ (n.saved addr).head? = some popBackToThisValue

def AllProper (n : Nested Kptr Word) : List Op → Prop
  | [] => True
  | op :: ops => Proper n op ∧ ∀ n', n.step op.nested = some n' → AllProper n' ops

/-! ## One stack -/

/-- The value on top of a stack, or else the original one. -/
def topOf (origval : Word) : List (Word × Word) → Word
  | [] => origval
  | top :: _ => top.2

/-- Each replacement was made over the one below it. -/
def Chained (origval : Word) : List (Word × Word) → Prop
  | [] => True
  | top :: rest => top.1 = topOf origval rest ∧ Chained origval rest

/-- What the daemon knows about a word is right. -/
structure Tracks (info : UndoablePokeInfo) (orig value : Word) (saved : List Word) : Prop where
  origval : info.origval = orig
  olds : info.replacementStack.map Prod.fst = saved
  top : topOf orig info.replacementStack = value
  chained : Chained orig info.replacementStack

variable {info : UndoablePokeInfo} {orig value newValue : Word} {saved : List Word}

theorem current_eq_topOf (info : UndoablePokeInfo) :
    info.current = topOf info.origval info.replacementStack := by
  rw [current]
  cases info.replacementStack with
  | nil | cons top rest => rfl

namespace Tracks

theorem current (h : Tracks info orig value saved) : info.current = value := by
  rw [current_eq_topOf, h.origval, h.top]

theorem push (h : Tracks info orig value saved) (newValue : Word) :
    ∃ info', info.push value newValue = some info' ∧ info'.howSoon = info.howSoon ∧
      Tracks info' orig newValue (value :: saved) := by
  refine ⟨{ info with replacementStack := (value, newValue) :: info.replacementStack }, ?_, rfl,
    h.origval, ?_, rfl, h.top.symm, h.chained⟩
  · rw [UndoablePokeInfo.push, check_pos h.current]
    rfl
  · rw [map_cons, h.olds]

theorem changeTop (h : Tracks info orig value saved) (hsaved : saved ≠ []) (newValue : Word)
    (howSoon : Nat) :
    ∃ info', ({ info with howSoon := howSoon } : UndoablePokeInfo).changeTopOfStack value newValue =
        some info' ∧ info'.howSoon = howSoon ∧ Tracks info' orig newValue saved := by
  obtain ⟨origval, oldHowSoon, stack⟩ := info
  cases stack with
  | nil => exact absurd h.olds.symm hsaved
  | cons top rest =>
    have htop : top.2 = value := h.top
    refine ⟨⟨origval, howSoon, (top.1, newValue) :: rest⟩, ?_, rfl, h.origval, h.olds, rfl,
      h.chained⟩
    simp [changeTopOfStack, check_pos htop]

theorem pop {b : Word} {rest : List Word} (h : Tracks info orig value (b :: rest)) :
    ∃ info', info.pop value b = some (info', rest.isEmpty) ∧ info'.howSoon = info.howSoon ∧
      Tracks info' orig b rest := by
  obtain ⟨origval, howSoon, stack⟩ := info
  obtain rfl : origval = orig := h.origval
  cases stack with
  | nil => cases h.olds
  | cons top below =>
    obtain ⟨hb, hrest⟩ := cons.inj h.olds
    have htop : top.2 = value := h.top
    have hchain : top.1 = topOf origval below := h.chained.1
    have hcurrent : UndoablePokeInfo.current ⟨origval, howSoon, below⟩ = b := by
      rw [current_eq_topOf, ← hb]
      exact hchain.symm
    refine ⟨⟨origval, howSoon, below⟩, ?_, rfl, rfl, hrest, ?_, h.chained.2⟩
    · have hempty : below.isEmpty = rest.isEmpty := by
        rw [← hrest, isEmpty_map]
      simp [UndoablePokeInfo.pop, check_pos htop, check_pos hb, check_pos hcurrent, hempty]
    · rw [← hb, hchain]

end Tracks

/-! ## The daemon and the driver -/

/-- The priority that the daemon has for each word with a stack. -/
def prio (s : Pokes) (a : Kptr) : Option Nat := (s.theUndoablePokes a).map UndoablePokeInfo.howSoon

/-- **The coupling**: the daemon knows the values saved for each word, and the driver lists the
words with a stack. -/
structure Coupled (isInNucleus : Kptr → Bool) (s : Pokes) (n : Nested Kptr Word) : Prop where
  memory : s.memory = n.memory
  untracked : ∀ a, s.theUndoablePokes a = none → n.saved a = []
  tracked : ∀ a info, s.theUndoablePokes a = some info →
    n.saved a ≠ [] ∧ Tracks info (n.original a) (n.memory a) (n.saved a)
  log : s.log.Lists s.prio n.original isInNucleus

section Steps

variable {isInNucleus : Kptr → Bool} {s s' : Pokes} {n n' : Nested Kptr Word} {addr : Kptr}
  {howSoon : Nat}

theorem coupled_start (isInNucleus : Kptr → Bool) (memory : Kptr → Word) :
    Coupled isInNucleus (start memory) (Nested.start memory) where
  memory := rfl
  untracked _ _ := rfl
  tracked _ _ h := nomatch h
  log := LoggedWrites.lists_empty

theorem prio_setInfo (s : Pokes) (addr : Kptr) (info : Option UndoablePokeInfo) :
    (s.setInfo addr info).prio = update s.prio addr (info.map UndoablePokeInfo.howSoon) :=
  funext fun a => apply_update (fun _ => Option.map howSoon) _ _ _ a

theorem prio_eq (hinfo : s.theUndoablePokes addr = some info) :
    s.prio addr = some info.howSoon := by
  rw [prio, hinfo]
  rfl

variable (hc : Coupled isInNucleus s n)

include hc

/-- A step on one word. -/
theorem Coupled.set (info : Option UndoablePokeInfo) (log : LoggedWrites)
    (horig : n'.original = n.original) (hmemory : n'.memory = update n.memory addr value)
    (hsaved : n'.saved = update n.saved addr saved) (hnone : info = none → saved = [])
    (hsome : ∀ i, info = some i → saved ≠ [] ∧ Tracks i (n.original addr) value saved)
    (hlog : log.Lists (update s.prio addr (info.map UndoablePokeInfo.howSoon)) n.original
      isInNucleus) :
    Coupled isInNucleus
      (setInfo ⟨update s.memory addr value, s.theUndoablePokes, log⟩ addr info) n' where
  memory := by
    rw [hmemory, ← hc.memory]
    rfl
  untracked a h := by
    change update s.theUndoablePokes addr info a = none at h
    rw [hsaved]
    rcases eq_or_ne a addr with rfl | hne
    · rw [update_self] at h ⊢
      exact hnone h
    · rw [update_of_ne hne] at h ⊢
      exact hc.untracked a h
  tracked a i h := by
    change update s.theUndoablePokes addr info a = some i at h
    rw [horig, hmemory, hsaved]
    rcases eq_or_ne a addr with rfl | hne
    · rw [update_self] at h
      rw [update_self, update_self]
      exact hsome i h
    · rw [update_of_ne hne] at h
      rw [update_of_ne hne, update_of_ne hne]
      exact hc.tracked a i h
  log := by
    rw [prio_setInfo, horig]
    exact hlog

/-- A step that leaves a stack. -/
theorem Coupled.set_some (info' : UndoablePokeInfo) (log : LoggedWrites)
    (horig : n'.original = n.original) (hmemory : n'.memory = update n.memory addr value)
    (hsaved : n'.saved = update n.saved addr saved) (hne : saved ≠ [])
    (htracks : Tracks info' (n.original addr) value saved)
    (hlog : log.Lists (update s.prio addr (some info'.howSoon)) n.original isInNucleus) :
    Coupled isInNucleus
      (setInfo ⟨update s.memory addr value, s.theUndoablePokes, log⟩ addr (some info'))
      n' := by
  refine hc.set (some info') log horig hmemory hsaved (fun h => nomatch h) (fun i h => ?_) hlog
  obtain rfl := some.inj h
  exact ⟨hne, htracks⟩

/-- The log need not change while a word keeps its priority. -/
theorem Coupled.lists_same {info' : UndoablePokeInfo} (hinfo : s.theUndoablePokes addr = some info)
    (hhow : info'.howSoon = info.howSoon) :
    s.log.Lists (update s.prio addr (some info'.howSoon)) n.original isInNucleus := by
  rw [hhow, ← prio_eq hinfo, update_eq_self]
  exact hc.log

/-- **A push** saves the value of the word. Only the first one is logged. -/
theorem Coupled.push (newValue : Word) (haligned : addr.toNat % 4 = 0) (hhow : howSoon ≤ 1) :
    ∃ s' n', s.poke1WordUndoablePush isInNucleus addr (n.memory addr) newValue howSoon = some s' ∧
      s.kernelDriver.poke1WordUndoablePush addr (n.memory addr) newValue howSoon =
        some s'.kernelDriver ∧
      n.step (.push addr newValue) = some n' ∧ Coupled isInNucleus s' n' := by
  have hstep : n.step (.push addr newValue) = some ⟨update n.memory addr newValue,
    update n.saved addr (n.memory addr :: n.saved addr)⟩ := rfl
  have horig := original_step hstep
  cases hinfo : s.theUndoablePokes addr with
  | some info =>
    obtain ⟨info', hpush, hsame, htracks⟩ := (hc.tracked addr info hinfo).2.push newValue
    refine ⟨_, _, ?_, ?_, hstep, hc.set_some info' s.log horig rfl rfl (cons_ne_nil _ _) htracks
      (hc.lists_same hinfo hsame)⟩
    · simp only [poke1WordUndoablePush, hinfo, hpush, run_do]
      rfl
    · simp only [KernelDriver.poke1WordUndoablePush, kernelDriver, hinfo, getD_some, hpush, run_do]
      rfl
  | none =>
    have hempty := hc.untracked addr hinfo
    have hvalue := memory_eq_original hempty
    have hprio : s.prio addr = none := by rw [prio, hinfo]; rfl
    obtain ⟨log, hwrite, hlog⟩ := hc.log.write1Undoable s.memory newValue haligned hhow hprio
      (by rw [hc.memory, hvalue])
    have hfirst : Tracks ⟨n.memory addr, howSoon, []⟩ (n.original addr) (n.memory addr) [] :=
      ⟨hvalue, rfl, hvalue.symm, trivial⟩
    rw [← hempty] at hfirst
    obtain ⟨info', hpush, hsame, htracks⟩ := hfirst.push newValue
    rw [show howSoon = info'.howSoon from hsame.symm] at hlog
    refine ⟨_, _, ?_, ?_, hstep, hc.set_some info' log horig rfl rfl (cons_ne_nil _ _) htracks hlog⟩
    · simp only [poke1WordUndoablePush, hinfo, hwrite, hpush, run_do]
      rfl
    · simp only [KernelDriver.poke1WordUndoablePush, kernelDriver, hinfo, getD_none, hpush, run_do]
      rfl

/-- **A change of the top** keeps what is saved. -/
theorem Coupled.changeTop (newValue : Word) (hsaved : n.saved addr ≠ []) (hhow : howSoon ≤ 1) :
    ∃ s' n', s.poke1WordUndoableChangeTopOfStack addr (n.memory addr) newValue howSoon = some s' ∧
      s.kernelDriver.poke1WordUndoableChangeTopOfStack addr (n.memory addr) newValue howSoon =
        some s'.kernelDriver ∧
      n.step (.change addr newValue) = some n' ∧ Coupled isInNucleus s' n' := by
  have hstep : n.step (.change addr newValue) = some ⟨update n.memory addr newValue, n.saved⟩ := by
    obtain ⟨b, rest, hcons⟩ := exists_cons_of_ne_nil hsaved
    simp [Nested.step, hcons]
  have horig := original_step hstep
  have hsame : n.saved = update n.saved addr (n.saved addr) :=
    (update_eq_self ..).symm
  cases hinfo : s.theUndoablePokes addr with
  | none => exact absurd (hc.untracked addr hinfo) hsaved
  | some info =>
    obtain ⟨info', hchange, hhow', htracks⟩ :=
      (hc.tracked addr info hinfo).2.changeTop hsaved newValue howSoon
    have hdriver : ∀ log : LoggedWrites,
        s.kernelDriver.poke1WordUndoableChangeTopOfStack addr (n.memory addr) newValue howSoon =
        some (setInfo ⟨update s.memory addr newValue, s.theUndoablePokes, log⟩ addr
          (some info')).kernelDriver := by
      intro log
      simp only [KernelDriver.poke1WordUndoableChangeTopOfStack, kernelDriver, hinfo, hchange,
        run_do]
      rfl
    by_cases hold : info.howSoon = howSoon
    · have hchange : info.changeTopOfStack (n.memory addr) newValue = some info' := by
        rw [← hchange, ← hold]
      refine ⟨_, _, ?_, hdriver s.log, hstep, hc.set_some info' s.log horig rfl hsame hsaved htracks
        (hc.lists_same hinfo (hhow'.trans hold.symm))⟩
      simp only [poke1WordUndoableChangeTopOfStack, hinfo, if_pos hold, hchange, run_do]
      rfl
    · obtain ⟨log, hlog, hlists⟩ := hc.log.changeHowSoon (prio_eq hinfo) hhow
      rw [← hhow'] at hlists
      refine ⟨_, _, ?_, hdriver log, hstep,
        hc.set_some info' log horig rfl hsame hsaved htracks hlists⟩
      simp only [poke1WordUndoableChangeTopOfStack, hinfo, if_neg hold, hlog, hchange, run_do]
      rfl

/-- **A pop** restores the newest value saved. The driver hears of the last one. -/
theorem Coupled.pop {b : Word} {rest : List Word} (hsaved : n.saved addr = b :: rest) :
    ∃ s' n', s.undoPoke1WordPop isInNucleus addr (n.memory addr) b = some s' ∧
      s.kernelDriver.undoPoke1WordPop addr (n.memory addr) b = some s'.kernelDriver ∧
      n.step (.pop addr) = some n' ∧ Coupled isInNucleus s' n' := by
  have hstep : n.step (.pop addr) = some ⟨update n.memory addr b, update n.saved addr rest⟩ := by
    simp [Nested.step, hsaved]
  have horig := original_step hstep
  cases hinfo : s.theUndoablePokes addr with
  | none =>
    rw [hc.untracked addr hinfo] at hsaved
    cases hsaved
  | some info =>
    have htracked := (hc.tracked addr info hinfo).2
    rw [hsaved] at htracked
    obtain ⟨info', hpop, hsame, htracks⟩ := htracked.pop
    cases rest with
    | nil =>
      have hb : n.original addr = b := by
        rw [← htracks.top, map_eq_nil_iff.mp htracks.olds]
        rfl
      have hinfo' : info'.origval = b := htracks.origval.trans hb
      obtain ⟨log, hundo, hlists⟩ :=
        hc.log.undoWriteWord s.memory (prio_eq hinfo) b
      rw [hb] at hundo
      refine ⟨_, _, ?_, ?_, hstep,
        hc.set none log horig rfl rfl (fun _ => rfl) (fun i h => by cases h) hlists⟩
      · simp only [undoPoke1WordPop, hinfo, hpop, popped, isEmpty_nil, if_true,
          check_pos hinfo', hundo, run_do]
        rfl
      · simp only [KernelDriver.undoPoke1WordPop, kernelDriver, hinfo, hpop, isEmpty_nil,
          if_true, run_do]
        rfl
    | cons c rest =>
      refine ⟨_, _, ?_, ?_, hstep, hc.set_some info' s.log horig rfl rfl (cons_ne_nil _ _)
        htracks (hc.lists_same hinfo hsame)⟩
      · simp only [undoPoke1WordPop, hinfo, hpop, popped, isEmpty_cons, Bool.false_eq_true,
          if_false, run_do]
        rfl
      · simp only [KernelDriver.undoPoke1WordPop, kernelDriver, hinfo, hpop, isEmpty_cons,
          Bool.false_eq_true, if_false, run_do]
        rfl

/-- **One operation** keeps the coupling, and is what `KernelDriver` says that it is. -/
theorem Coupled.perform {op : Op} (hop : Proper n op) :
    ∃ s' n', s.perform isInNucleus op = some s' ∧
      op.onKernelDriver s.kernelDriver = some s'.kernelDriver ∧
      n.step op.nested = some n' ∧ Coupled isInNucleus s' n' := by
  cases op with
  | push addr oldValue newValue howSoon =>
    obtain ⟨haligned, rfl, hhow⟩ := hop
    exact hc.push newValue haligned hhow
  | changeTopOfStack addr oldValue newValue howSoon =>
    obtain ⟨hsaved, rfl, hhow⟩ := hop
    exact hc.changeTop newValue hsaved hhow
  | pop addr currentValueInMem popBackToThisValue =>
    obtain ⟨rfl, hhead⟩ := hop
    obtain ⟨rest, hsaved⟩ := head?_eq_some_iff.mp hhead
    exact hc.pop hsaved

end Steps

/-! ## Runs -/

/-- **A run** keeps the coupling. -/
theorem Coupled.run {isInNucleus : Kptr → Bool} :
    ∀ (ops : List Op) {s : Pokes} {n : Nested Kptr Word}, Coupled isInNucleus s n →
      AllProper n ops →
      ∃ s' n', s.run isInNucleus ops = some s' ∧ n.run (ops.map Op.nested) = some n' ∧
        Coupled isInNucleus s' n' := by
  intro ops
  induction ops with
  | nil =>
    intro s n hc _
    exact ⟨s, n, rfl, rfl, hc⟩
  | cons op ops ih =>
    intro s n hc hops
    obtain ⟨s₁, n₁, hperform, -, hstep, hc₁⟩ := hc.perform hops.1
    obtain ⟨s', n', hrun, hnested, hc'⟩ := ih hc₁ (hops.2 n₁ hstep)
    refine ⟨s', n', ?_, ?_, hc'⟩
    · rw [Pokes.run, foldlM_cons, hperform]
      exact hrun
    · rw [map_cons, Nested.run, foldlM_cons, hstep]
      exact hnested

theorem AllProper.of_append {pre ops : List Op} : ∀ {n : Nested Kptr Word},
    AllProper n (pre ++ ops) → AllProper n pre := by
  induction pre with
  | nil => exact fun _ => trivial
  | cons op pre ih => exact fun h => ⟨h.1, fun n' hstep => ih (h.2 n' hstep)⟩

/-- **What holds at any moment**, with the memory at the start, the operations since then, and an
order in which `undo` goes through a table of the log. -/
structure Nests (isInNucleus : Kptr → Bool) (iterate : Dict → List OneWrite)
    (orig : Kptr → Word) (ops : List Op) (s : Pokes) : Prop where
  /-- a word holds the value on top of its stack, or its original value -/
  memory : ∀ a, s.memory a = (s.theUndoablePokes a).elim (orig a) UndoablePokeInfo.current
  /-- what the daemon records is a stack over the original value -/
  stack : ∀ a info, s.theUndoablePokes a = some info →
    info.replacementStack ≠ [] ∧ info.origval = orig a
  /-- a pop restores the value from before the matching push -/
  pop : ∀ pre inner addr oldValue newValue howSoon current back,
    ops = pre ++ .push addr oldValue newValue howSoon :: (inner ++ [.pop addr current back]) →
      Nested.Balanced addr (inner.map Op.nested) →
      ∃ s₀, (start orig).run isInNucleus pre = some s₀ ∧ s.memory addr = s₀.memory addr
  /-- no word is in both tables of the log -/
  disjoint : ∀ a, ¬ (a ∈ s.log.pri0 ∧ a ∈ s.log.pri1)
  /-- the log lists the words with a stack -/
  listed : ∀ a, a ∈ s.log.pri0 ∨ a ∈ s.log.pri1 ↔ ∃ info, s.theUndoablePokes a = some info
  /-- each with its original value -/
  origval : ∀ a w, s.log.pri0.lookup a = some w ∨ s.log.pri1.lookup a = some w →
    w.addr = a ∧ w.origval = orig a
  /-- undoing the log restores the memory -/
  undo : s.log.undo iterate s.memory = orig
  /-- all words of priority 0 are restored before any word of priority 1 -/
  order : ∃ first second, s.log.undoWrites iterate = first ++ second ∧
    (∀ a, a ∈ first.map Prod.fst ↔ s.prio a = some 0) ∧
    ∀ a, a ∈ second.map Prod.fst ↔ s.prio a = some 1

section Runs

variable {isInNucleus : Kptr → Bool} {iterate : Dict → List OneWrite} {orig : Kptr → Word}
  {ops : List Op} {s : Pokes} {n : Nested Kptr Word}

theorem Coupled.nests (hc : Coupled isInNucleus s n) (horig : n.original = orig)
    (hiterate : ∀ d, (iterate d).Perm (d.entries.map Sigma.snd))
    (hops : AllProper (Nested.start orig) ops)
    (hrun : (Nested.start orig).run (ops.map Op.nested) = some n) :
    Nests isInNucleus iterate orig ops s where
  memory a := by
    cases hinfo : s.theUndoablePokes a with
    | none => rw [hc.memory, memory_eq_original (hc.untracked a hinfo), horig]; rfl
    | some info => rw [hc.memory]; exact (hc.tracked a info hinfo).2.current.symm
  stack a info hinfo := by
    obtain ⟨hsaved, htracks⟩ := hc.tracked a info hinfo
    refine ⟨fun hnil => hsaved ?_, htracks.origval.trans (congrFun horig a)⟩
    rw [← htracks.olds, hnil]
    rfl
  pop pre inner addr oldValue newValue howSoon current back heq hbal := by
    subst heq
    obtain ⟨s₀, n₀, hrun₀, hnested, hc₀⟩ :=
      run pre (coupled_start isInNucleus orig) hops.of_append
    refine ⟨s₀, hrun₀, ?_⟩
    rw [map_append, map_cons, map_append] at hrun
    obtain ⟨n₁, hfirst, hrest⟩ := exists_of_run_append hrun
    obtain rfl := mem_unique hnested hfirst
    rw [hc.memory, hc₀.memory]
    exact memory_of_balanced hbal hrest
  disjoint a h := by
    have h₀ := (hc.log.mem_iff 0 a).mp h.1
    have h₁ := (hc.log.mem_iff 1 a).mp h.2
    cases h₀.symm.trans h₁
  listed a := by
    constructor
    · rintro (h | h)
      · exact map_eq_some_iff.mp ((hc.log.mem_iff 0 a).mp h) |>.imp fun _ h => h.1
      · exact map_eq_some_iff.mp ((hc.log.mem_iff 1 a).mp h) |>.imp fun _ h => h.1
    · rintro ⟨info, hinfo⟩
      have hprio := prio_eq hinfo
      rcases Nat.le_one_iff_eq_zero_or_eq_one.mp (hc.log.le_one hprio) with h | h
      · exact Or.inl ((hc.log.mem_iff 0 a).mpr (h ▸ hprio))
      · exact Or.inr ((hc.log.mem_iff 1 a).mpr (h ▸ hprio))
  origval a w h := by
    rw [← horig]
    rcases h with h | h
    · exact ⟨(hc.log.entry 0 a w h).1, (hc.log.entry 0 a w h).2.1⟩
    · exact ⟨(hc.log.entry 1 a w h).1, (hc.log.entry 1 a w h).2.1⟩
  undo := by
    rw [← horig]
    refine hc.log.undo_eq hiterate fun a hprio => ?_
    rw [hc.memory]
    exact memory_eq_original (hc.untracked a (map_eq_none_iff.mp hprio))
  order := ⟨_, _, rfl, fun a => hc.log.mem_iterate_iff hiterate (i := 0),
    fun a => hc.log.mem_iterate_iff hiterate (i := 1)⟩

/-- **Undoable pokes nest.** However pushes, changes and pops of any words are interleaved, as long
as each caller passes the values that the routines assert, no assertion fails, memory and stacks
are what the same operations come to in `Nested`, and `Nests` holds after each of them. -/
theorem exists_nests (isInNucleus : Kptr → Bool) (orig : Kptr → Word)
    (hiterate : ∀ d, (iterate d).Perm (d.entries.map Sigma.snd))
    (hops : AllProper (Nested.start orig) ops) :
    ∃ s n, (start orig).run isInNucleus ops = some s ∧
      (Nested.start orig).run (ops.map Op.nested) = some n ∧ Coupled isInNucleus s n ∧
      Nests isInNucleus iterate orig ops s := by
  obtain ⟨s, n, hrun, hnested, hc⟩ :=
    Coupled.run ops (coupled_start isInNucleus orig) hops
  have horig : n.original = orig := original_run hnested
  exact ⟨s, n, hrun, hnested, hc, hc.nests horig hiterate hops hnested⟩

/-- Two words, the first of them poked twice and then changed to the other priority. -/
def sampleOps : List Op :=
  [.push 0x1000 7 1 0, .push 0x2000 7 5 1, .push 0x1000 1 2 1, .changeTopOfStack 0x1000 2 3 1,
    .pop 0x1000 3 1]

theorem allProper_sampleOps : AllProper (Nested.start fun _ => 7) sampleOps := by
  refine ⟨⟨rfl, rfl, by decide⟩, fun n₁ h₁ => ?_⟩
  obtain rfl := some.inj h₁
  refine ⟨⟨rfl, rfl, by decide⟩, fun n₂ h₂ => ?_⟩
  obtain rfl := some.inj h₂
  refine ⟨⟨rfl, rfl, by decide⟩, fun n₃ h₃ => ?_⟩
  obtain rfl := some.inj h₃
  refine ⟨⟨cons_ne_nil _ _, rfl, by decide⟩, fun n₄ h₄ => ?_⟩
  obtain rfl := some.inj h₄
  exact ⟨⟨rfl, rfl⟩, fun _ _ => trivial⟩

theorem exists_nests_sample :
    ∃ s n, (start fun _ => 7).run (fun _ => false) sampleOps = some s ∧
      (Nested.start fun _ => 7).run (sampleOps.map Op.nested) = some n ∧
      Coupled (fun _ => false) s n ∧
      Nests (fun _ => false) (fun d => d.entries.map Sigma.snd) (fun _ => 7) sampleOps s :=
  exists_nests (fun _ => false) (fun _ => 7) (fun _ => Perm.refl _) allProper_sampleOps

/-- **The log is not seen.** What is built on `KernelDriver` may run on this driver: every run is
one of `KernelDriver`, and leaves it coherent. -/
theorem run_onKernelDriver (isInNucleus : Kptr → Bool) (orig : Kptr → Word)
    (hops : AllProper (Nested.start orig) ops) :
    ∃ s, (start orig).run isInNucleus ops = some s ∧ s.kernelDriver.Coherent ∧
      ops.foldlM Op.onKernelDriver (start orig).kernelDriver = some s.kernelDriver := by
  have hrun : ∀ (ops : List Op) {s n}, Coupled isInNucleus s n → AllProper n ops →
      ∃ s' n', s.run isInNucleus ops = some s' ∧ Coupled isInNucleus s' n' ∧
        ops.foldlM Op.onKernelDriver s.kernelDriver = some s'.kernelDriver := by
    intro ops
    induction ops with
    | nil => exact fun hc _ => ⟨_, _, rfl, hc, rfl⟩
    | cons op ops ih =>
      intro s n hc hops
      obtain ⟨s₁, n₁, hperform, hdriver, hstep, hc₁⟩ := hc.perform hops.1
      rw [Pokes.run, foldlM_cons, foldlM_cons, hperform, hdriver]
      exact ih hc₁ (hops.2 n₁ hstep)
  obtain ⟨s, n, hs, hc, hdriver⟩ := hrun ops (coupled_start isInNucleus orig) hops
  refine ⟨s, hs, fun a info hinfo => ?_, hdriver⟩
  obtain ⟨hsaved, htracks⟩ := hc.tracked a info hinfo
  refine ⟨fun hnil => hsaved ?_, htracks.current.trans (congrFun hc.memory a).symm⟩
  rw [← htracks.olds, hnil]
  rfl

theorem run_onKernelDriver_sample : ∃ s,
    (start fun _ => 7).run (fun _ => false) sampleOps = some s ∧ s.kernelDriver.Coherent ∧
      sampleOps.foldlM Op.onKernelDriver (start fun _ => 7).kernelDriver = some s.kernelDriver :=
  run_onKernelDriver _ _ allProper_sampleOps

end Runs

end Pokes

end Kerninst.Solaris
