import Kerninst.Driver.HashTable

/-!
# Virtual timers across context switches

Modelled from `kerninstdriver-linux/src/cswitch_inout.c`, `stacklist.c`, `all_vtimers.h` and
`vtimer.h`. A virtual timer counts events of one thread: when the thread is switched out, each
timer that runs on its cpu is stopped and saved in a vector; when the thread is switched in, on
whatever cpu, the saved timers are restarted.

The vectors are preallocated. Those that are free form a list (`Stacklist`), and those in use are
the data of the hash table `ht_vtimers` under the thread's id. A vector ends at a null address.

A timer is known by its address, which is an element of `V`. Its fields for each cpu lie at a
fixed stride behind it, so that the memory of all timers is a function of the timer and the cpu.
What the hardware counters show is an argument of each event.
-/

namespace Kerninst.Vtimers

/-- `max_num_vtimers` -/
def maxNumVtimers : Nat := 50

/-- `max_num_threads`, the number of vectors -/
def maxNumThreads : Nat := 200

/-! ## Timers -/

/-- `vtimer_start`; a recursion count of zero means that the timer is off. -/
structure VtimerStart where
  start : BitVec 48
  rcount : BitVec 16
deriving DecidableEq

/-- `vtimer`, for one cpu -/
structure Vtimer where
  totalField : BitVec 64
  startField : VtimerStart
deriving DecidableEq

/-- `all_vtimers`, with the types of the timers and the driver's switch for the counters. The
array ends with a null address, so that one place is lost. -/
structure AllVtimers (V : Type) where
  vtimerAddresses : List V
  length_lt : vtimerAddresses.length < maxNumVtimers
  counterType : V → BitVec 32
  enableP4counters : Bool

/-- What the counters show, each when it is read. -/
abbrev Clock (V : Type) := V → BitVec 48

/-- `KIND_OF` -/
def kindOf (type : BitVec 32) : BitVec 32 := type &&& 0x7fff

/-- `IS_WALL_TIMER` -/
def IsWallTimer (type : BitVec 32) : Prop := type &&& 0x8000 ≠ 0

instance (type : BitVec 32) : Decidable (IsWallTimer type) := inferInstanceAs (Decidable (_ ≠ _))

variable {V : Type}

/-- There is a counter for the timer: the time stamp counter, or another one that is switched
on. -/
def AllVtimers.Counts (av : AllVtimers V) (t : V) : Prop :=
  kindOf (av.counterType t) = 1 ∨ (kindOf (av.counterType t) ≠ 0 ∧ av.enableP4counters = true)

instance (av : AllVtimers V) (t : V) : Decidable (av.Counts t) :=
  inferInstanceAs (Decidable (_ ∨ _))

/-- The timer's counter -/
def AllVtimers.counter (av : AllVtimers V) (clock : Clock V) (t : V) : Option (BitVec 48) :=
  if av.Counts t then some (clock t) else none

/-- `generic_vstop_routine`. The second result is what is stored in the saved timer, if the
timer is to be added to the thread. -/
def genericVstopRoutine (vtimer : Vtimer) : Option (BitVec 48) → Vtimer × Option VtimerStart
  | some counter =>
    let total := vtimer.totalField + (counter - vtimer.startField.start).setWidth 64
    -- protect against rollback
    ({ totalField := if counter > vtimer.startField.start then total else vtimer.totalField
       startField := ⟨0, 0⟩ }, some ⟨counter, vtimer.startField.rcount⟩)
  | none => ({ vtimer with startField := ⟨0, 0⟩ }, none)

/-- `generic_vrestart_routine` -/
def genericVrestartRoutine (vtimer : Vtimer) (oldStart : VtimerStart) (type : BitVec 32) :
    Option (BitVec 48) → Vtimer
  | some counter =>
    let total := vtimer.totalField + (counter - oldStart.start).setWidth 64
    { totalField :=
        if IsWallTimer type ∧ counter > oldStart.start then total else vtimer.totalField
      startField := ⟨counter, oldStart.rcount⟩ }
  | none => { vtimer with startField := oldStart }

/-! ## The list of free vectors -/

/-- `saved_timer` -/
structure SavedTimer (V : Type) where
  addr : Option V
  auxdata : VtimerStart

/-- `stacklist`. A vector is known by the number of its item. -/
structure Stacklist (V : Type) where
  next : Nat → Option Nat
  timers : Nat → Nat → SavedTimer V
  head : Option Nat

def stacklistInitialize (h : Stacklist V) : Stacklist V :=
  { h with
    next := fun i => if i + 1 < maxNumThreads then some (i + 1) else none
    head := some 0 }

def stacklistGet (h : Stacklist V) : Option Nat × Stacklist V :=
  match h.head with
  | none => (none, h)
  | some v => (some v, { h with head := h.next v })

def stacklistFree (h : Stacklist V) (v : Nat) : Stacklist V :=
  { h with next := Function.update h.next v h.head, head := some v }

/-- Write an element of a vector. -/
def Stacklist.setTimer (h : Stacklist V) (v i : Nat) (saved : SavedTimer V) : Stacklist V :=
  { h with timers := Function.update h.timers v (Function.update (h.timers v) i saved) }

/-! ## The switches -/

variable [DecidableEq V]

/-- The fields of all timers on all cpus. -/
abbrev Memory (V : Type) := V → Nat → Vtimer

def setVtimer (vt : Memory V) (t : V) (cpu : Nat) (vtimer : Vtimer) : Memory V :=
  Function.update vt t (Function.update (vt t) cpu vtimer)

/-- The driver's structures. -/
structure Cswitch (V : Type) where
  vt : Memory V
  htVtimers : HashTable Nat
  slHeap : Stacklist V
  numberUnsavedTimers : BitVec 32

/-- The variables of the loop in `on_switch_out`. -/
structure Saving (V : Type) where
  vt : Memory V
  slHeap : Stacklist V
  vecOfTimers : Option Nat
  /-- `vec_of_timers_iter - vec_of_timers` -/
  iter : Nat
  numberUnsavedTimers : BitVec 32

/-- Get a vector if there is none yet. -/
def Saving.grab (st : Saving V) : Saving V :=
  match st.vecOfTimers with
  | some _ => st
  | none =>
    match stacklistGet st.slHeap with
    | (some v, heap) => { st with slHeap := heap, vecOfTimers := some v, iter := 0 }
    | (none, _) => { st with numberUnsavedTimers := st.numberUnsavedTimers + 1 }

/-- Add a timer that was stopped to the vector. -/
def Saving.add (st : Saving V) (t : V) (saved : Option VtimerStart) : Saving V :=
  match st.vecOfTimers, saved with
  | some v, some auxdata =>
    { st with slHeap := st.slHeap.setTimer v st.iter ⟨some t, auxdata⟩, iter := st.iter + 1 }
  | _, _ => st

/-- Stop a timer. -/
def Saving.stop (st : Saving V) (av : AllVtimers V) (cpu : Nat) (clock : Clock V) (t : V) :
    Saving V :=
  let stopped := genericVstopRoutine (st.vt t cpu) (av.counter clock t)
  { st with vt := setVtimer st.vt t cpu stopped.1 }.add t stopped.2

/-- One round of the loop in `on_switch_out`. -/
def Saving.round (av : AllVtimers V) (cpu : Nat) (clock : Clock V) (st : Saving V) (t : V) :
    Saving V :=
  if (st.vt t cpu).startField.rcount ≠ 0 then st.grab.stop av cpu clock t else st

/-- After the loop: mark the end of the vector, and add it to the hash table. Whether this
succeeds is not looked at. -/
def Saving.finish (st : Saving V) (htVtimers : HashTable Nat) (currThr : Key) :
    Option (Cswitch V) :=
  match st.vecOfTimers with
  | none => some ⟨st.vt, htVtimers, st.slHeap, st.numberUnsavedTimers⟩
  | some v => do
    let (htVtimers, _) ← hashTableAdd htVtimers (some v) currThr
    let last := { st.slHeap.timers v st.iter with addr := none }
    return ⟨st.vt, htVtimers, st.slHeap.setTimer v st.iter last, st.numberUnsavedTimers⟩

def onSwitchOut (av : AllVtimers V) (s : Cswitch V) (currThr : Key) (currCpu : Nat)
    (clock : Clock V) : Option (Cswitch V) :=
  (av.vtimerAddresses.foldl (Saving.round av currCpu clock)
    ⟨s.vt, s.slHeap, none, 0, s.numberUnsavedTimers⟩).finish s.htVtimers currThr

/-- The loop of `on_switch_in`. It does not look where the vector ends. -/
def restartLoop (av : AllVtimers V) (cpu : Nat) (clock : Clock V) (vec : Nat → SavedTimer V) :
    Nat → Nat → Memory V → Option (Memory V)
  | 0, _, _ => none
  | rounds + 1, iter, vt =>
    match (vec iter).addr with
    | none => some vt
    | some t =>
      restartLoop av cpu clock vec rounds (iter + 1)
        (setVtimer vt t cpu (genericVrestartRoutine (vt t cpu) (vec iter).auxdata
          (av.counterType t) (av.counter clock t)))

def onSwitchIn (av : AllVtimers V) (s : Cswitch V) (currThr : Key) (currCpu : Nat)
    (clock : Clock V) : Option (Cswitch V) := do
  let (htVtimers, timersStart) ← hashTableRemove s.htVtimers currThr
  match timersStart with
  | none => some { s with htVtimers := htVtimers } -- probably the common case
  | some v => do
    let vt ← restartLoop av currCpu clock (s.slHeap.timers v) maxNumVtimers 0 s.vt
    return ⟨vt, htVtimers, stacklistFree s.slHeap v, s.numberUnsavedTimers⟩

/-! ## Schedules -/

/-- A switch, or a timer that is started or stopped in between. -/
inductive Event (V : Type)
  | switchOut (thr : Key) (cpu : Nat) (clock : Clock V)
  | switchIn (thr : Key) (cpu : Nat) (clock : Clock V)
  | timer (t : V) (cpu : Nat) (vtimer : Vtimer)

def handle (av : AllVtimers V) (s : Cswitch V) : Event V → Option (Cswitch V)
  | .switchOut thr cpu clock => onSwitchOut av s thr cpu clock
  | .switchIn thr cpu clock => onSwitchIn av s thr cpu clock
  | .timer t cpu vtimer => some { s with vt := setVtimer s.vt t cpu vtimer }

def Cswitch.run (av : AllVtimers V) (s : Cswitch V) (events : List (Event V)) :
    Option (Cswitch V) :=
  events.foldlM (handle av) s

/-- The driver is loaded, whatever the memory held before. -/
def Cswitch.start (s : Cswitch V) : Cswitch V :=
  { s with
    htVtimers := hashTableInitialize s.htVtimers
    slHeap := stacklistInitialize s.slHeap }

end Kerninst.Vtimers
