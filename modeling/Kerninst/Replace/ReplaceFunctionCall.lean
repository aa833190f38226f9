import Kerninst.Replace.Launcher

/-!
# The requests to replace one call

`replaceFunctionCall` keeps the requests to redirect the call at one call site. They are meant to
be a stack: the newest is installed, removing it installs the one below, and removing an older one
changes nothing else.

Every launcher is made by `makeLauncher`, which asserts that the call site *in memory* still calls
the old function. While a request is installed it calls the new one. So that assertion fails

* for a second request, and
* for the removal of the newest of several requests,

unless the installed request happens to call the old function itself. A request that is not the
newest is taken out of the vector by `*i++ = *(i+1)`, which uses and changes `i` in no particular
order. What is in the vector then is undefined, so that no such removal counts as a success here.
There are no other failures: `run_iff_stepOk` says that a sequence of requests and removals behaves
as a stack if and only if it avoids these three.
-/

namespace Kerninst

open Launcher List

/-- A request in `presentRequests`. -/
structure CallRequest where
  client : Nat
  reqid : Nat
  newFn : Kptr
deriving DecidableEq

/-- What a `replaceFunctionCall` is made for, and from. -/
structure CallSite where
  callSiteAddr : Kptr
  oldfn : Kptr
  theSpringBoardHeap : SpringBoardHeap

/-- The requests and their launcher, with the kernel that they act on. -/
structure ReplaceFunctionCall where
  kernel : Kernel
  presentRequests : List CallRequest
  theLauncher : Option Launcher

namespace ReplaceFunctionCall

/-- The position of a request. -/
def findRequest (presentRequests : List CallRequest) (client reqid : Nat) : Option Nat :=
  presentRequests.findIdx? fun q => q.client == client && q.reqid == reqid

section

variable (c : CallSite)

/-- The launcher restores what is in memory, which must be a call of the old function. -/
def makeLauncher (k : Kernel) (newfn : Kptr) : Option Launcher := do
  let expected ← SparcInstr.callandlink c.oldfn c.callSiteAddr
  check (k.driver.peek1Word c.callSiteAddr = expected)
  callLauncher c.callSiteAddr newfn (k.driver.peek1Word c.callSiteAddr)

/-- `installNow`, over the launcher of a previous request. -/
def installOverPrevious (s : ReplaceFunctionCall) (theNewLauncher : Launcher) :
    Option ReplaceFunctionCall := do
  let theLauncher ← s.theLauncher
  let otherGuysCurrentInsn ← theLauncher.createSplicingInsn
  let installed ← theNewLauncher.installOverwritingExisting c.theSpringBoardHeap
    SparcRegSet.emptyset s.kernel otherGuysCurrentInsn theLauncher.whenAllDoneRestoreToThisInsn
  pure
    { s with
      kernel := theLauncher.unInstallAnotherAlreadyInstalled installed.1
      theLauncher := some installed.2 }

/-- `installNow`, over the original call. -/
def installFirst (s : ReplaceFunctionCall) (theNewLauncher : Launcher) :
    Option ReplaceFunctionCall := do
  check (s.theLauncher = none)
  let installed ← theNewLauncher.installNotOverwritingExisting c.theSpringBoardHeap
    SparcRegSet.emptyset s.kernel
  pure { s with kernel := installed.1, theLauncher := some installed.2 }

def installNow (s : ReplaceFunctionCall) (theNewLauncher : Launcher) :
    Option ReplaceFunctionCall :=
  if s.presentRequests.length ≠ 0 then s.installOverPrevious c theNewLauncher
  else s.installFirst c theNewLauncher

def makeRequestAndInstallNow (s : ReplaceFunctionCall) (q : CallRequest) :
    Option ReplaceFunctionCall := do
  let theNewLauncher ← makeLauncher c s.kernel q.newFn
  let s ← s.installNow c theNewLauncher
  pure { s with presentRequests := s.presentRequests ++ [q] }

def unInstallWithNoReplacement (s : ReplaceFunctionCall) : Option ReplaceFunctionCall := do
  check (s.presentRequests.length = 1)
  let theLauncher ← s.theLauncher
  let k ← theLauncher.unInstallNoOtherAlreadyInstalled s.kernel
  pure ⟨k, s.presentRequests.dropLast, none⟩

def installRequestReplacingExistingOneNow (s : ReplaceFunctionCall) (newFn : Kptr) :
    Option ReplaceFunctionCall := do
  let theNewLauncher ← makeLauncher c s.kernel newFn
  s.installNow c theNewLauncher

/-- Remove the request at a position. -/
def removeAt (s : ReplaceFunctionCall) (i : Nat) : Option ReplaceFunctionCall :=
  if i + 1 ≠ s.presentRequests.length then
    -- not the installed one: `*i++ = *(i+1)` is undefined
    none
  else if 1 < s.presentRequests.length then do
    let below ← s.presentRequests[i - 1]?
    let s ← s.installRequestReplacingExistingOneNow c below.newFn
    pure { s with presentRequests := s.presentRequests.dropLast }
  else s.unInstallWithNoReplacement

def removeRequestAndUninstallIfAppropriateNow (s : ReplaceFunctionCall) (client reqid : Nat) :
    Option ReplaceFunctionCall := do
  let i ← findRequest s.presentRequests client reqid
  let s ← s.removeAt c i
  check (s.presentRequests = [] ↔ s.theLauncher = none)
  pure s

inductive Op
  | make (q : CallRequest)
  | remove (client reqid : Nat)

def perform (s : ReplaceFunctionCall) : Op → Option ReplaceFunctionCall
  | .make q => s.makeRequestAndInstallNow c q
  | .remove client reqid => s.removeRequestAndUninstallIfAppropriateNow c client reqid

def run (s : ReplaceFunctionCall) : List Op → Option ReplaceFunctionCall
  | [] => some s
  | op :: ops => do
    let s ← s.perform c op
    s.run ops

end

/-- No request was made yet. -/
def start (k : Kernel) : ReplaceFunctionCall := ⟨k, [], none⟩

/-! ## A stack of requests -/

/-- The requests that were made and not yet removed, oldest first. -/
def outstanding (requests : List CallRequest) : Op → List CallRequest
  | .make q => requests ++ [q]
  | .remove client reqid => requests.eraseP fun q => q.client == client && q.reqid == reqid

/-- Each step of a sequence meets a condition that depends on the requests present then. -/
def EachStep (P : List CallRequest → Op → Prop) (requests : List CallRequest) : List Op → Prop
  | [] => True
  | op :: ops => P requests op ∧ EachStep P (outstanding requests op) ops

/-- The request to be removed is the newest. -/
def IsNewest (requests : List CallRequest) (client reqid : Nat) : Prop :=
  findRequest requests client reqid = some (requests.length - 1)

/-- The call site can call the function. -/
structure Callable (c : CallSite) (fn : Kptr) : Prop where
  aligned : fn.toNat % 4 = 0
  inRange : inRangeOfCall c.callSiteAddr fn = some true

/-- A new function can be called, and a request that is removed is there. -/
def Proper (c : CallSite) (requests : List CallRequest) : Op → Prop
  | .make q => Callable c q.newFn
  | .remove client reqid => ∃ q ∈ requests, q.client = client ∧ q.reqid = reqid

/-- **What a stack of requests does.** The newest request counts, and all other words are as they
were. -/
structure Shows (c : CallSite) (orig : Kptr → Word) (s : ReplaceFunctionCall) : Prop where
  newest : ∀ q, s.presentRequests.getLast? = some q →
    IsCallTo (s.kernel.driver.memory c.callSiteAddr) c.callSiteAddr q.newFn
  restored : s.presentRequests = [] → s.kernel.driver.memory = orig
  others : ∀ a, a ≠ c.callSiteAddr → s.kernel.driver.memory a = orig a

/-- There is no request, or the newest one is for the old function. -/
def CallsOld (c : CallSite) (requests : List CallRequest) : Prop :=
  ∀ top, requests.getLast? = some top → top.newFn = c.oldfn

/-- A request is made, or the newest of several removed, only while the call site calls the old
function, and only the newest request is removed. -/
def StepOk (c : CallSite) (requests : List CallRequest) : Op → Prop
  | .make _ => CallsOld c requests
  | .remove client reqid => IsNewest requests client reqid ∧
      (1 < requests.length → CallsOld c requests)

end ReplaceFunctionCall

/-- The call site holds a call of the old function, and what the driver knows about it is right. -/
structure CallSite.Ok (c : CallSite) (d : KernelDriver) : Prop where
  aligned : c.callSiteAddr.toNat % 4 = 0
  callable : ReplaceFunctionCall.Callable c c.oldfn
  calls : SparcInstr.callandlink c.oldfn c.callSiteAddr = some (d.memory c.callSiteAddr)
  known : d.KnownAt c.callSiteAddr

namespace ReplaceFunctionCall

variable {c : CallSite} {d : KernelDriver} {orig : Kptr → Word} {s s' : ReplaceFunctionCall}
  {q : CallRequest} {fn : Kptr} {client reqid : Nat}

/-- The launcher of a request. -/
def launcherFor (c : CallSite) (orig : Kptr → Word) (newFn : Kptr) (installed : Bool) :
    Launcher :=
  { new .call c.callSiteAddr newFn (orig c.callSiteAddr) with installed := installed }

/-! ## The call in memory -/

theorem Callable.exists_call (hfn : Callable c fn) (halign : c.callSiteAddr.toNat % 4 = 0) :
    ∃ w, SparcInstr.callandlink fn c.callSiteAddr = some w ∧ IsCallTo w c.callSiteAddr fn := by
  obtain ⟨w, disp, hw, hd, htarget⟩ := SparcInstr.callandlink_spec hfn.inRange hfn.aligned halign
  exact ⟨w, hw, disp, hd, htarget⟩

/-- What is in memory, and what will be put back, while some requests are present. -/
structure Installed (c : CallSite) (orig : Kptr → Word) (k : Kernel) (fn : Kptr) (w : Word) :
    Prop where
  word : SparcInstr.callandlink fn c.callSiteAddr = some w
  call : IsCallTo w c.callSiteAddr fn
  driver : k.driver.Replaced orig c.callSiteAddr w

theorem Installed.peek {k : Kernel} {w : Word} (hk : Installed c orig k fn w) :
    k.driver.memory c.callSiteAddr = w := by
  rw [hk.driver.memory, Function.update_self]

/-- The state of the launcher is that of the newest request. -/
structure Inv (c : CallSite) (orig : Kptr → Word) (s : ReplaceFunctionCall) : Prop where
  callable : ∀ q ∈ s.presentRequests, Callable c q.newFn
  idle : s.presentRequests = [] →
    s.theLauncher = none ∧ s.kernel.driver.memory = orig ∧ s.kernel.driver.KnownAt c.callSiteAddr
  busy : ∀ q, s.presentRequests.getLast? = some q →
    s.theLauncher = some (launcherFor c orig q.newFn true) ∧
      ∃ w, Installed c orig s.kernel q.newFn w

section Installing

variable (hc : c.Ok d) (hs : Inv c d.memory s)

include hc

theorem makeLauncher_eq {k : Kernel}
    (hmem : k.driver.memory c.callSiteAddr = d.memory c.callSiteAddr) (hfn : Callable c fn) :
    makeLauncher c k fn = some (launcherFor c d.memory fn false) := by
  simp only [makeLauncher, hc.calls, KernelDriver.peek1Word, hmem, check_pos, callLauncher,
    hfn.inRange, run_do]
  rfl

include hs

/-- The call site is as it was exactly while it calls the old function. -/
theorem Inv.memory_eq_iff : s.kernel.driver.memory c.callSiteAddr = d.memory c.callSiteAddr ↔
      CallsOld c s.presentRequests := by
  cases htop : s.presentRequests.getLast? with
  | none =>
    have hmem := (hs.idle (getLast?_eq_none_iff.mp htop)).2.1
    exact iff_of_true (by rw [hmem]) fun top h => nomatch htop.symm.trans h
  | some top =>
    obtain ⟨-, w, hk⟩ := hs.busy top htop
    obtain ⟨w₀, hw₀, hcall₀⟩ := hc.callable.exists_call hc.aligned
    obtain rfl : w₀ = d.memory c.callSiteAddr := Option.mem_unique hw₀ hc.calls
    rw [hk.peek]
    constructor
    · rintro rfl top' htop'
      obtain rfl := Option.mem_unique htop htop'
      obtain ⟨disp, hd, hto⟩ := hk.call
      obtain ⟨disp', hd', hto'⟩ := hcall₀
      obtain rfl : disp = disp' := by injection hd.symm.trans hd'
      exact hto.symm.trans hto'
    · intro hold
      have hword := hk.word
      rw [hold top htop, hw₀] at hword
      exact (Option.some.inj hword).symm

/-- A launcher is not made over another function's call. -/
theorem Inv.install_eq_none (hold : ¬ CallsOld c s.presentRequests) (fn : Kptr) :
    s.installRequestReplacingExistingOneNow c fn = none := by
  have hmem : s.kernel.driver.peek1Word c.callSiteAddr ≠ d.memory c.callSiteAddr :=
    mt (hs.memory_eq_iff hc).mp hold
  simp [installRequestReplacingExistingOneNow, makeLauncher, hc.calls, check_neg hmem]

/-- **Installing**, over a call of the old function. -/
theorem Inv.install (hold : CallsOld c s.presentRequests) (hfn : Callable c fn) :
    ∃ k w, s.installRequestReplacingExistingOneNow c fn =
        some { s with kernel := k, theLauncher := some (launcherFor c d.memory fn true) } ∧
      Installed c d.memory k fn w := by
  obtain ⟨w, hw, hcall⟩ := hfn.exists_call hc.aligned
  have hmem := (hs.memory_eq_iff hc).mpr hold
  have hsplice : ∀ installed, (launcherFor c d.memory fn installed).createSplicingInsn = some w :=
    fun _ => hw
  cases htop : s.presentRequests.getLast? with
  | none =>
    have hnil := getLast?_eq_none_iff.mp htop
    obtain ⟨hlauncher, horig, hknown⟩ := hs.idle hnil
    obtain ⟨driver, hpush, hreplaced⟩ := hknown.push w 0
    rw [horig] at hpush hreplaced
    have hinstall : (launcherFor c d.memory fn false).installNotOverwritingExisting
        c.theSpringBoardHeap SparcRegSet.emptyset s.kernel =
        some ({ s.kernel with driver := driver }, launcherFor c d.memory fn true) := by
      simp only [installNotOverwritingExisting, doInstall, prepare, launcherFor, new] at hsplice ⊢
      simp [hsplice, hpush]
    refine ⟨{ s.kernel with driver := driver }, w, ?_, hw, hcall, hreplaced⟩
    simp [installRequestReplacingExistingOneNow, makeLauncher_eq hc hmem hfn, installNow, hnil,
      installFirst, hlauncher, check_pos, hinstall]
  | some top =>
    obtain ⟨hlauncher, w₀, hk⟩ := hs.busy top htop
    obtain ⟨driver, hchange, hreplaced⟩ := hk.driver.changeTop w 0
    have hinstall : (launcherFor c d.memory fn false).installOverwritingExisting
        c.theSpringBoardHeap SparcRegSet.emptyset s.kernel w₀ (d.memory c.callSiteAddr) =
        some ({ s.kernel with driver := driver }, launcherFor c d.memory fn true) := by
      simp only [installOverwritingExisting, doInstall, prepare, launcherFor, new] at hsplice ⊢
      simp [check_pos, hsplice, hchange]
    have hsplice₀ : (launcherFor c d.memory top.newFn true).createSplicingInsn = some w₀ := hk.word
    have hpresent : s.presentRequests.length ≠ 0 := by
      rintro hlen
      rw [length_eq_zero_iff.mp hlen] at htop
      cases htop
    refine ⟨{ s.kernel with driver := driver }, w, ?_, hw, hcall, hreplaced⟩
    simp only [installRequestReplacingExistingOneNow, makeLauncher_eq hc hmem hfn, installNow,
      if_pos hpresent, installOverPrevious, hlauncher, hsplice₀, run_do]
    rw [show (launcherFor c d.memory top.newFn true).whenAllDoneRestoreToThisInsn =
      d.memory c.callSiteAddr from rfl, hinstall]
    rfl

end Installing

/-! ## Positions -/

theorem Proper.exists_find {requests : List CallRequest}
    (h : Proper c requests (.remove client reqid)) :
    ∃ i, findRequest requests client reqid = some i ∧ i < requests.length ∧
      outstanding requests (.remove client reqid) = requests.eraseIdx i := by
  obtain ⟨q, hmem, rfl, rfl⟩ := h
  have hsome : (findRequest requests q.client q.reqid).isSome := by
    rw [findRequest, findIdx?_isSome, any_eq_true]
    exact ⟨q, hmem, by simp⟩
  obtain ⟨i, hi⟩ := Option.isSome_iff_exists.mp hsome
  refine ⟨i, hi, (findIdx?_eq_some_iff_findIdx_eq.mp hi).1, ?_⟩
  rw [findRequest] at hi
  rw [outstanding, eraseP_eq_eraseIdx, hi]

variable {i : Nat}

/-- The requests below the newest one are the ones left when it is removed. -/
theorem getLast?_eraseIdx_last {α : Type} {l : List α} (hi : i + 1 = l.length)
    (hlen : 1 < l.length) : (l.eraseIdx i).getLast? = l[i - 1]? := by
  rw [eraseIdx_eq_dropLast hi, getLast?_dropLast, if_neg (by omega),
    show l.length - 2 = i - 1 by omega]

/-! ## Steps -/

section Steps

variable (hc : c.Ok d) (hs : Inv c d.memory s)

include hs

include hc

/-- **A request** is installed and put on the list. -/
theorem Inv.make (hfn : Callable c q.newFn) (hold : CallsOld c s.presentRequests) :
    ∃ s', s.makeRequestAndInstallNow c q = some s' ∧ Inv c d.memory s' ∧
      s'.presentRequests = s.presentRequests ++ [q] := by
  obtain ⟨k, w, hinstall, hk⟩ := hs.install hc hold hfn
  refine ⟨⟨k, s.presentRequests ++ [q], some (launcherFor c d.memory q.newFn true)⟩, ?_,
    ⟨fun q' hq' => ?_, fun h => absurd h (by simp), fun q' hq' => ?_⟩, rfl⟩
  · rw [makeRequestAndInstallNow, ← bind_assoc]
    exact congrArg (· >>= _) hinstall
  · rcases mem_append.mp hq' with hq' | hq'
    · exact hs.callable q' hq'
    · exact mem_singleton.mp hq' ▸ hfn
  · rw [getLast?_concat, Option.some.injEq] at hq'
    exact hq' ▸ ⟨rfl, w, hk⟩

/-- **Removing the newest** of several requests installs the one below. -/
theorem Inv.remove_newest (hi : findRequest s.presentRequests client reqid = some i)
    (hlen : i + 1 = s.presentRequests.length) (hmany : 1 < s.presentRequests.length)
    (hold : CallsOld c s.presentRequests) :
    ∃ s', s.removeRequestAndUninstallIfAppropriateNow c client reqid = some s' ∧
      Inv c d.memory s' ∧ s'.presentRequests = s.presentRequests.eraseIdx i := by
  obtain ⟨below, hbelow⟩ : ∃ below, s.presentRequests[i - 1]? = some below :=
    ⟨_, getElem?_eq_getElem (by omega)⟩
  have hlast := (getLast?_eraseIdx_last hlen hmany).trans hbelow
  have hmem := mem_of_getElem? hbelow
  have hleft : s.presentRequests.dropLast ≠ [] := by
    rw [← eraseIdx_eq_dropLast hlen]
    intro hnil
    rw [hnil] at hlast
    cases hlast
  obtain ⟨k, w, hinstall, hk⟩ := hs.install hc hold (hs.callable below hmem)
  refine ⟨⟨k, s.presentRequests.eraseIdx i, some (launcherFor c d.memory below.newFn true)⟩, ?_,
    ⟨fun q' hq' => hs.callable q' (mem_of_mem_eraseIdx hq'), fun h => ?_, fun q' hq' => ?_⟩,
    rfl⟩
  · simp [removeRequestAndUninstallIfAppropriateNow, hi, removeAt, hlen, if_pos hmany, hbelow,
      hinstall, hleft, check_pos, eraseIdx_eq_dropLast hlen]
  · rw [eraseIdx_eq_dropLast hlen] at h
    exact absurd h hleft
  · obtain rfl := Option.mem_unique hlast hq'
    exact ⟨rfl, w, hk⟩

omit hc in
/-- Removing the only request puts the original call back. -/
theorem Inv.remove_only (hi : findRequest s.presentRequests client reqid = some i)
    (hlen : i + 1 = s.presentRequests.length) (hone : ¬ 1 < s.presentRequests.length) :
    ∃ s', s.removeRequestAndUninstallIfAppropriateNow c client reqid = some s' ∧
      Inv c d.memory s' ∧ s'.presentRequests = s.presentRequests.eraseIdx i := by
  have hsize : s.presentRequests.length = 1 := by omega
  obtain ⟨top, htop⟩ := length_eq_one_iff.mp hsize
  obtain ⟨hlauncher, w, hk⟩ := hs.busy top (by rw [htop]; rfl)
  obtain ⟨driver, hpop, horig, hknown⟩ := hk.driver.pop
  have huninstall : (launcherFor c d.memory top.newFn true).unInstallNoOtherAlreadyInstalled
      s.kernel = some { s.kernel with driver := driver } := by
    simp [unInstallNoOtherAlreadyInstalled, launcherFor, new, createSplicingInsn, hk.word, hpop,
      freeLater]
  have hnil : s.presentRequests.dropLast = [] := by rw [htop]; rfl
  refine ⟨⟨{ s.kernel with driver := driver }, [], none⟩, ?_,
    ⟨(fun _ h => by cases h), fun _ => ⟨rfl, horig, hknown⟩, fun _ h => by cases h⟩, ?_⟩
  · simp only [removeRequestAndUninstallIfAppropriateNow, hi, removeAt, hlen, ne_eq, not_true,
      if_false, unInstallWithNoReplacement, hsize, check_pos, hlauncher, huninstall, hnil, run_do]
    rfl
  · rw [eraseIdx_eq_dropLast hlen, hnil]

/-- **One step**: it keeps the requests as a stack. -/
theorem Inv.perform {op : Op} (hop : Proper c s.presentRequests op)
    (hok : StepOk c s.presentRequests op) :
    ∃ s', s.perform c op = some s' ∧ Inv c d.memory s' ∧
      s'.presentRequests = outstanding s.presentRequests op := by
  cases op with
  | make q => exact hs.make hc hop hok
  | remove client reqid =>
    obtain ⟨i, hi, hlt, hleft⟩ := hop.exists_find
    obtain ⟨hnewest, hold⟩ := hok
    have hlen : i + 1 = s.presentRequests.length := by
      obtain rfl := Option.some.inj (hi.symm.trans hnewest)
      omega
    rw [hleft]
    by_cases hmany : 1 < s.presentRequests.length
    · exact hs.remove_newest hc hi hlen hmany (hold hmany)
    · exact hs.remove_only hi hlen hmany

/-- **What fails**: no launcher is made while another function is called, and no request is taken
from below another one. -/
theorem Inv.perform_eq_none {op : Op} (hop : Proper c s.presentRequests op)
    (hok : ¬ StepOk c s.presentRequests op) : s.perform c op = none := by
  cases op with
  | make q =>
    rw [ReplaceFunctionCall.perform, makeRequestAndInstallNow, ← bind_assoc]
    exact congrArg (· >>= _) (hs.install_eq_none hc hok q.newFn)
  | remove client reqid =>
    obtain ⟨i, hi, hlt, -⟩ := hop.exists_find
    by_cases hlen : i + 1 = s.presentRequests.length
    · have hnewest : IsNewest s.presentRequests client reqid := by
        rw [IsNewest, hi, ← hlen, Nat.add_sub_cancel]
      obtain ⟨hmany, hold⟩ := Classical.not_imp.mp fun h => hok ⟨hnewest, h⟩
      simp [ReplaceFunctionCall.perform, removeRequestAndUninstallIfAppropriateNow, hi, removeAt,
        if_pos hmany, hs.install_eq_none hc hold]
    · have hnone : s.removeAt c i = none := if_pos hlen
      simp [ReplaceFunctionCall.perform, removeRequestAndUninstallIfAppropriateNow, hi, hnone]

omit hc in
theorem Inv.shows : Shows c d.memory s where
  newest q hq := by
    obtain ⟨-, w, hk⟩ := hs.busy q hq
    rw [hk.peek]
    exact hk.call
  restored hnil := (hs.idle hnil).2.1
  others a hne := by
    cases htop : s.presentRequests.getLast? with
    | none => rw [(hs.idle (getLast?_eq_none_iff.mp htop)).2.1]
    | some top =>
      obtain ⟨-, w, hk⟩ := hs.busy top htop
      rw [hk.driver.memory, Function.update_of_ne hne]

end Steps

/-! ## Runs -/

theorem Inv.run (hc : c.Ok d) : ∀ (ops : List Op) {s : ReplaceFunctionCall}, Inv c d.memory s →
    EachStep (Proper c) s.presentRequests ops → EachStep (StepOk c) s.presentRequests ops →
      ∃ s', s.run c ops = some s' ∧ Inv c d.memory s' ∧
        s'.presentRequests = ops.foldl outstanding s.presentRequests := by
  intro ops
  induction ops with
  | nil =>
    intro s hs _ _
    exact ⟨s, rfl, hs, rfl⟩
  | cons op ops ih =>
    intro s hs hops hoks
    obtain ⟨s₁, hstep, hs₁, hrequests⟩ := hs.perform hc hops.1 hoks.1
    obtain ⟨s', hrun, hs', hrequests'⟩ := ih hs₁ (hrequests ▸ hops.2) (hrequests ▸ hoks.2)
    refine ⟨s', ?_, hs', ?_⟩
    · rw [ReplaceFunctionCall.run, hstep]
      exact hrun
    · rw [hrequests', hrequests, foldl_cons]

theorem Inv.stepOk_of_run (hc : c.Ok d) : ∀ (ops : List Op) {s s' : ReplaceFunctionCall},
    Inv c d.memory s → EachStep (Proper c) s.presentRequests ops → s.run c ops = some s' →
      EachStep (StepOk c) s.presentRequests ops := by
  intro ops
  induction ops with
  | nil => exact fun _ _ _ => trivial
  | cons op ops ih =>
    intro s s' hs hops hrun
    obtain ⟨s₁, hstep, hrest⟩ := exists_of_bind hrun
    have hok : StepOk c s.presentRequests op := by
      by_contra hbad
      cases (hs.perform_eq_none hc hops.1 hbad).symm.trans hstep
    obtain ⟨s₂, hstep₂, hs₂, hrequests⟩ := hs.perform hc hops.1 hok
    obtain rfl := Option.mem_unique hstep hstep₂
    exact ⟨hok, hrequests ▸ ih hs₂ (hrequests ▸ hops.2) hrest⟩

theorem inv_start {k : Kernel} (hc : c.Ok k.driver) : Inv c k.driver.memory (start k) where
  callable _ hq := nomatch hq
  idle _ := ⟨rfl, rfl, hc.known⟩
  busy _ hq := nomatch hq

theorem EachStep.of_prefix {P : List CallRequest → Op → Prop} {pre ops : List Op} :
    ∀ {requests : List CallRequest}, EachStep P requests ops → pre <+: ops →
      EachStep P requests pre := by
  induction pre generalizing ops with
  | nil => exact fun _ _ => trivial
  | cons op pre ih =>
    intro requests hops hpre
    obtain ⟨rest, rfl⟩ := hpre
    exact ⟨hops.1, ih hops.2 ⟨rest, rfl⟩⟩

/-- **When requests are a stack.** Nothing fails, and the call site shows the newest request at all
times, if and only if launchers are only made while the old function is called and requests are
only removed from the top. -/
theorem run_iff_stepOk {k : Kernel} (hc : c.Ok k.driver) {ops : List Op}
    (hops : EachStep (Proper c) [] ops) :
    (∀ pre, pre <+: ops → ∃ s, (start k).run c pre = some s ∧
        s.presentRequests = pre.foldl outstanding [] ∧ Shows c k.driver.memory s) ↔
      EachStep (StepOk c) [] ops := by
  constructor
  · intro h
    obtain ⟨s, hrun, -⟩ := h ops prefix_rfl
    exact (inv_start hc).stepOk_of_run hc ops hops hrun
  · intro hoks pre hpre
    obtain ⟨s, hrun, hs, hrequests⟩ := (inv_start hc).run hc pre (hops.of_prefix hpre)
      (hoks.of_prefix hpre)
    exact ⟨s, hrun, hrequests, hs.shows⟩

/-- The call site at `0x3000` calls the function at `0x1000`. -/
def sampleSite : CallSite where
  callSiteAddr := 0x3000
  oldfn := 0x1000
  theSpringBoardHeap := fun _ _ _ _ => none

def sampleKernel : Kernel where
  driver := ⟨fun _ => 0x7FFFF800, fun _ => none⟩
  springboards := []
  events := []

theorem sampleSite_ok : sampleSite.Ok sampleKernel.driver where
  aligned := rfl
  callable := ⟨rfl, rfl⟩
  calls := rfl
  known _ := rfl

/-- Two requests for the old function itself, the second of them removed, and one for another
function. -/
def sampleRequests : List Op :=
  [.make ⟨1, 1, 0x1000⟩, .make ⟨2, 1, 0x1000⟩, .remove 2 1, .make ⟨1, 2, 0x2000⟩]

theorem run_iff_stepOk_sample :
    ∃ s, (start sampleKernel).run sampleSite sampleRequests = some s ∧
      s.presentRequests = [⟨1, 1, 0x1000⟩, ⟨1, 2, 0x2000⟩] ∧
      Shows sampleSite sampleKernel.driver.memory s := by
  have hproper : EachStep (Proper sampleSite) [] sampleRequests :=
    ⟨⟨rfl, rfl⟩, ⟨rfl, rfl⟩, ⟨⟨2, 1, 0x1000⟩, by decide, rfl, rfl⟩, ⟨rfl, rfl⟩, trivial⟩
  have hold : CallsOld sampleSite [⟨1, 1, 0x1000⟩] := by rintro _ ⟨⟩; rfl
  have hold₂ : CallsOld sampleSite [⟨1, 1, 0x1000⟩, ⟨2, 1, 0x1000⟩] := by rintro _ ⟨⟩; rfl
  have hok : EachStep (StepOk sampleSite) [] sampleRequests :=
    ⟨(fun top h => nomatch h), hold, ⟨rfl, fun _ => hold₂⟩, hold, trivial⟩
  exact (run_iff_stepOk sampleSite_ok hproper).mpr hok _ prefix_rfl

/-- Two requests for functions near by: each is fine, but not the second after the first. -/
theorem second_call_request_fails :
    (∃ s, (start sampleKernel).run sampleSite [.make ⟨1, 1, 0x2000⟩] = some s) ∧
      (∃ s, (start sampleKernel).run sampleSite [.make ⟨1, 2, 0x4000⟩] = some s) ∧
      (start sampleKernel).run sampleSite [.make ⟨1, 1, 0x2000⟩, .make ⟨1, 2, 0x4000⟩] = none := by
  refine ⟨⟨_, rfl⟩, ⟨_, rfl⟩, rfl⟩

end ReplaceFunctionCall

end Kerninst
