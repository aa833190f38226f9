import Kerninst.Replace.InstrumentationMgr
import Kerninst.Replace.Launcher

/-!
# The requests to replace one function

`replaceFunction` keeps the requests to replace one function. The newest is the one that is
installed: a launcher at the entry of the function and, if the request asks for it, a call
launcher at every known call site. Removing it installs the one below.

`Shows` says what memory should look like while some requests are present. It does as long as
there is one request at a time (`run_of_stepsOk`): then every request is installed over the
original instructions, and every removal puts them back, also when springboards of earlier
requests are freed in between.

A second request is another matter. Its launchers are made by `makeLaunchers`, which on the SPARC
records as the original instruction what is *in memory*. That is the branch of the launcher that
is installed already, so that the assertion of `installOverwritingExisting`, that both have
recorded the same instruction, fails: unless the function happened to start with this branch in
the first place, no request can be installed over another one.
-/

namespace Kerninst

open Launcher KernelDriver List Function Option

open KernelDriver (Patches)

/-- What a `replaceFunction` is made for, and from. -/
structure ReplacedFn where
  oldfn : Kptr
  /-- `getCallSitesTo` -/
  callSites : List Kptr
  /-- `findFn` finds the function that a call site is in -/
  findFn : Kptr → Bool
  deadRegsAtStartOfOldFn : SparcRegSet
  theSpringBoardHeap : SpringBoardHeap

/-- The requests and their launchers, with the kernel that they act on. -/
structure ReplaceFunction where
  kernel : Kernel
  presentRequests : List (ReplaceRequest 64)
  theLauncher : Option Launcher
  patchedUpCallSites : List Launcher

namespace ReplaceFunction

section

variable (fn : ReplacedFn)

/-- The launcher for one call site, which must call the old function. -/
def makeCallLauncher (k : Kernel) (newfn theCallSite : Kptr) : Option Launcher := do
  let expected ← SparcInstr.callandlink fn.oldfn theCallSite
  check (k.driver.peek1Word theCallSite = expected)
  callLauncher theCallSite newfn (k.driver.peek1Word theCallSite)

def makeCallLaunchers (k : Kernel) (newfn : Kptr) (replaceCallSitesToo : Bool) :
    Option (List Launcher) :=
  if replaceCallSitesToo then do
    check (fn.callSites.all fn.findFn)
    fn.callSites.mapM (makeCallLauncher fn k newfn)
  else some []

def makeLaunchers (k : Kernel) (newfn : Kptr) (replaceCallSitesToo : Bool) :
    Option (Launcher × List Launcher) := do
  let theNewLauncher ←
    pickAnAnnulledLauncher fn.oldfn newfn (k.driver.peek1Word fn.oldfn)
  let theNewPatchedUpCallSites ← makeCallLaunchers fn k newfn replaceCallSitesToo
  pure (theNewLauncher, theNewPatchedUpCallSites)

/-- Install call launchers over the ones that are there. There may be none to be installed, and
then the first index is out of bounds; or none to be overwritten, and then none is installed. -/
def overwriteCallSites : List Launcher → List Launcher → Kernel → Option (Kernel × List Launcher)
  | [], news, k => some (k, news)
  | _ :: _, [], _ => none
  | oldCallLauncher :: olds, newCallLauncher :: news, k => do
    check (newCallLauncher.fromAddr = oldCallLauncher.fromAddr)
    let otherGuysCurrentInsn ← oldCallLauncher.createSplicingInsn
    let installed ← newCallLauncher.installOverwritingExisting fn.theSpringBoardHeap
      fn.deadRegsAtStartOfOldFn k otherGuysCurrentInsn oldCallLauncher.whenAllDoneRestoreToThisInsn
    let rest ← overwriteCallSites olds news
      (oldCallLauncher.unInstallAnotherAlreadyInstalled installed.1)
    pure (rest.1, installed.2 :: rest.2)

def installCallSites : List Launcher → Kernel → Option (Kernel × List Launcher)
  | [], k => some (k, [])
  | theCallSiteLauncher :: launchers, k => do
    let installed ← theCallSiteLauncher.installNotOverwritingExisting fn.theSpringBoardHeap
      fn.deadRegsAtStartOfOldFn k
    let rest ← installCallSites launchers installed.1
    pure (rest.1, installed.2 :: rest.2)

/-- `installNow`, over the launchers of a previous request. -/
def installOverPrevious (s : ReplaceFunction) (oldPrefs : ReplaceRequest 64)
    (theNewLauncher : Launcher) (theNewPatchedUpCallSites : List Launcher) :
    Option ReplaceFunction := do
  check (s.patchedUpCallSites ≠ [] → oldPrefs.replaceCallSitesToo = true)
  let theLauncher ← s.theLauncher
  let otherGuysCurrentInsn ← theLauncher.createSplicingInsn
  let installed ← theNewLauncher.installOverwritingExisting fn.theSpringBoardHeap
    fn.deadRegsAtStartOfOldFn s.kernel otherGuysCurrentInsn
    theLauncher.whenAllDoneRestoreToThisInsn
  check (s.patchedUpCallSites ≠ [] → theNewPatchedUpCallSites ≠ [] →
    theNewPatchedUpCallSites.length = s.patchedUpCallSites.length)
  let sites ← overwriteCallSites fn s.patchedUpCallSites theNewPatchedUpCallSites
    (theLauncher.unInstallAnotherAlreadyInstalled installed.1)
  pure
    { s with
      kernel := sites.1
      theLauncher := some installed.2
      patchedUpCallSites := sites.2 }

/-- `installNow`, over the original instructions. -/
def installFirst (s : ReplaceFunction) (theNewLauncher : Launcher)
    (theNewPatchedUpCallSites : List Launcher) : Option ReplaceFunction := do
  check (s.theLauncher = none)
  let installed ← theNewLauncher.installNotOverwritingExisting fn.theSpringBoardHeap
    fn.deadRegsAtStartOfOldFn s.kernel
  check (s.patchedUpCallSites = [])
  let sites ← installCallSites fn theNewPatchedUpCallSites installed.1
  pure
    { s with
      kernel := sites.1
      theLauncher := some installed.2
      patchedUpCallSites := sites.2 }

def installNow (s : ReplaceFunction) (theNewLauncher : Launcher)
    (theNewPatchedUpCallSites : List Launcher) : Option ReplaceFunction :=
  match s.presentRequests.getLast? with
  | some oldPrefs => s.installOverPrevious fn oldPrefs theNewLauncher theNewPatchedUpCallSites
  | none => s.installFirst fn theNewLauncher theNewPatchedUpCallSites

def makeRequestAndInstallNow (s : ReplaceFunction) (q : ReplaceRequest 64) :
    Option ReplaceFunction := do
  let theNewLaunchers ← makeLaunchers fn s.kernel q.newFn q.replaceCallSitesToo
  let s ← s.installNow fn theNewLaunchers.1 theNewLaunchers.2
  pure { s with presentRequests := s.presentRequests ++ [q] }

def unInstallCallSites : List Launcher → Kernel → Option Kernel
  | [], k => some k
  | theCallLauncher :: launchers, k => do
    let k ← theCallLauncher.unInstallNoOtherAlreadyInstalled k
    unInstallCallSites launchers k

def unInstallWithNoReplacement (s : ReplaceFunction) : Option ReplaceFunction := do
  check (s.presentRequests.length = 1)
  let k ← unInstallCallSites s.patchedUpCallSites s.kernel
  let theLauncher ← s.theLauncher
  let k ← theLauncher.unInstallNoOtherAlreadyInstalled k
  pure ⟨k, s.presentRequests.dropLast, none, []⟩

def installRequestReplacingExistingOneNow (s : ReplaceFunction) (thePrefs : ReplaceRequest 64) :
    Option ReplaceFunction := do
  let theNewLaunchers ← makeLaunchers fn s.kernel thePrefs.newFn thePrefs.replaceCallSitesToo
  s.installNow fn theNewLaunchers.1 theNewLaunchers.2

/-- Remove the request at a position. -/
def removeAt (s : ReplaceFunction) (i : Nat) : Option ReplaceFunction :=
  if i + 1 ≠ s.presentRequests.length then
    -- not the installed one: `*i++ = *(i+1)`, which is to slide the others, is undefined
    none
  else if 1 < s.presentRequests.length then do
    let below ← s.presentRequests[i - 1]?
    let s ← s.installRequestReplacingExistingOneNow fn below
    pure { s with presentRequests := s.presentRequests.dropLast }
  else s.unInstallWithNoReplacement

def removeRequestAndUninstallIfAppropriateNow (s : ReplaceFunction) (client reqid : Nat) :
    Option ReplaceFunction := do
  let i ← findRequest s.presentRequests client reqid
  let s ← s.removeAt fn i
  check (s.presentRequests = [] ↔ s.theLauncher = none)
  check (s.presentRequests = [] → s.patchedUpCallSites = [])
  pure s

/-- What happens to a replaced function: requests, and the events that free springboards. -/
inductive Op
  | make (q : ReplaceRequest 64)
  | remove (client reqid : Nat)
  | freeSpringboard

def perform (s : ReplaceFunction) : Op → Option ReplaceFunction
  | .make q => s.makeRequestAndInstallNow fn q
  | .remove client reqid => s.removeRequestAndUninstallIfAppropriateNow fn client reqid
  | .freeSpringboard => do
    let k ← s.kernel.doNow
    pure { s with kernel := k }

def run (s : ReplaceFunction) : List Op → Option ReplaceFunction
  | [] => some s
  | op :: ops => do
    let s ← s.perform fn op
    s.run ops

end

/-- No request was made yet. Others may have changed the kernel, and use springboards. -/
def start (d : KernelDriver) (springboards : List Kptr) : ReplaceFunction :=
  ⟨⟨d, springboards, []⟩, [], none, []⟩

/-! ## What requests are for -/

/-- The requests that were made and not yet removed, oldest first. -/
def outstanding (requests : List (ReplaceRequest 64)) : Op → List (ReplaceRequest 64)
  | .make q => requests ++ [q]
  | .remove client reqid => requests.eraseP fun q => q.client == client && q.reqid == reqid
  | .freeSpringboard => requests

/-- **What memory should look like** while some requests are present: the newest one counts. -/
structure Shows (fn : ReplacedFn) (orig memory : Kptr → Word)
    (requests : List (ReplaceRequest 64)) : Prop where
  entry : ∀ q, requests.getLast? = some q → TransfersTo memory fn.oldfn q.newFn
  sites : ∀ q, requests.getLast? = some q → ∀ site ∈ fn.callSites,
    if q.replaceCallSitesToo then IsCallTo (memory site) site q.newFn
    else memory site = orig site
  restored : requests = [] → ∀ addr ∈ fn.oldfn :: fn.callSites, memory addr = orig addr

/-- The launchers of a request can be made: the new function is in reach, and the call sites that
are to be patched are calls of the old function. -/
structure Launchable (fn : ReplacedFn) (k : Kernel) (q : ReplaceRequest 64) : Prop where
  aligned : q.newFn.toNat % 4 = 0
  reachable : Reachable fn.theSpringBoardHeap k.springboards fn.oldfn q.newFn
  sites : q.replaceCallSitesToo = true → ∀ site ∈ fn.callSites, fn.findFn site = true ∧
    SparcInstr.callandlink fn.oldfn site = some (k.driver.memory site) ∧
    inRangeOfCall site q.newFn = some true

/-- A request is made while there is no other, and a request that is removed is there. -/
def StepOk (fn : ReplacedFn) (s : ReplaceFunction) : Op → Prop
  | .make q => s.presentRequests = [] ∧ Launchable fn s.kernel q
  | .remove client reqid => ∃ q ∈ s.presentRequests, q.client = client ∧ q.reqid = reqid
  | .freeSpringboard => True

def StepsOk (fn : ReplacedFn) (s : ReplaceFunction) : List Op → Prop
  | [] => True
  | op :: ops => StepOk fn s op ∧ ∀ s', s.perform fn op = some s' → s'.StepsOk fn ops

end ReplaceFunction

/-- Addresses of instructions are aligned, the entry and the call sites are different words, and
springboards are elsewhere. -/
structure ReplacedFn.Ok (fn : ReplacedFn) (items : Set Kptr) : Prop where
  heap : HeapOk fn.theSpringBoardHeap items
  low : fn.oldfn.toNat < 2 ^ 63
  aligned : ∀ addr ∈ fn.oldfn :: fn.callSites, addr.toNat % 4 = 0
  nodup : (fn.oldfn :: fn.callSites).Nodup
  clear : ∀ addr ∈ fn.oldfn :: fn.callSites, Clear items addr

namespace ReplaceFunction

variable {fn : ReplacedFn} {items : Set Kptr} {d : KernelDriver} {p : Patches} {k : Kernel}
  {newfn : Kptr} {q : ReplaceRequest 64} {s s' : ReplaceFunction}

/-! ## Call sites -/

/-- The launcher of a call site. -/
def siteLauncher (d : KernelDriver) (newfn site : Kptr) (installed : Bool) : Launcher :=
  { new .call site newfn (d.memory site) with installed := installed }

/-- What is patched at the call site calls the new function. -/
def SitePatched (newfn site : Kptr) (v : Option (Word × Nat)) : Prop :=
  ∃ w, SparcInstr.callandlink newfn site = some w ∧ IsCallTo w site newfn ∧ v = some (w, 0)

/-- A loop over call sites takes each from `Pre` to `Post`, and changes no other address. -/
def PatchesSites (items : Set Kptr) (d : KernelDriver) (Runs : List Kptr → Kernel → Kernel → Prop)
    (Pre Post : Kptr → Option (Word × Nat) → Prop) : Prop :=
  ∀ (sites : List Kptr) {k : Kernel} {p : Patches}, k.Patched items d p → sites.Nodup →
    (∀ site ∈ sites, Clear items site ∧ Pre site (p site)) →
    ∃ p', Runs sites k { k with driver := d.patchedWith p' } ∧
      Kernel.Patched { k with driver := d.patchedWith p' } items d p' ∧
      (∀ site ∈ sites, Post site (p' site)) ∧ ∀ a, a ∉ sites → p' a = p a

theorem patchesSites_of_step {Runs : List Kptr → Kernel → Kernel → Prop}
    {Pre Post : Kptr → Option (Word × Nat) → Prop} (hnil : ∀ k, Runs [] k k)
    (hcons : ∀ {site sites k p}, k.Patched items d p → Pre site (p site) →
      ∃ v, Post site v ∧ ∀ k', Runs sites { k with driver := d.patchedWith (update p site v) } k' →
        Runs (site :: sites) k k') :
    PatchesSites items d Runs Pre Post := by
  intro sites
  induction sites with
  | nil =>
    intro k p hk _ _
    refine ⟨p, ?_, ?_, fun site h => (not_mem_nil h).elim, fun a _ => rfl⟩ <;>
      rw [hk.with_driver]
    exacts [hnil k, hk]
  | cons site sites ih =>
    intro k p hk hnodup hsites
    obtain ⟨hnotMem, hnodup⟩ := nodup_cons.mp hnodup
    obtain ⟨hclear, hpre⟩ := hsites site (mem_cons_self ..)
    obtain ⟨v, hpost, hruns⟩ := hcons hk hpre
    have hrest : ∀ site' ∈ sites, Clear items site' ∧ Pre site' (update p site v site') := by
      intro site' hmem
      rw [update_of_ne (ne_of_mem_of_not_mem hmem hnotMem)]
      exact hsites site' (mem_cons_of_mem _ hmem)
    obtain ⟨p', hrun, hk', hdone, hsame⟩ := ih (hk.update hclear v) hnodup hrest
    refine ⟨p', hruns _ hrun, hk', ?_, fun a ha => ?_⟩
    · intro site' hmem
      rcases mem_cons.mp hmem with rfl | hmem
      · rwa [hsame site' hnotMem, update_self]
      · exact hdone site' hmem
    · obtain ⟨hne, ha⟩ := ne_and_not_mem_of_not_mem_cons ha
      rw [hsame a ha, update_of_ne hne]

theorem installCallSites_spec (fn : ReplacedFn) (hd : d.Coherent) (hnewfn : newfn.toNat % 4 = 0) :
    PatchesSites items d
      (fun sites k k' => installCallSites fn (sites.map (siteLauncher d newfn · false)) k =
        some (k', sites.map (siteLauncher d newfn · true)))
      (fun site v => site.toNat % 4 = 0 ∧ v = none ∧ inRangeOfCall site newfn = some true)
      (SitePatched newfn) := by
  refine patchesSites_of_step (fun k => rfl) fun {site sites k p} hk hpre => ?_
  obtain ⟨halign, hnone, hrange⟩ := hpre
  obtain ⟨w, disp, hw, hdecode, htarget⟩ := SparcInstr.callandlink_spec hrange hnewfn halign
  have hinstall : (siteLauncher d newfn site false).installNotOverwritingExisting
      fn.theSpringBoardHeap fn.deadRegsAtStartOfOldFn k =
      some ({ k with driver := d.patchedWith (update p site (some (w, 0))) },
        siteLauncher d newfn site true) :=
    install_direct hd hk hnone (by decide : LauncherKind.call ≠ .springboard) hw
  refine ⟨some (w, 0), ⟨w, hw, ⟨disp, hdecode, htarget⟩, rfl⟩, fun k' hrun => ?_⟩
  rw [map_cons, map_cons, installCallSites, hinstall, bind_eq_bind, bind_some, hrun]
  rfl

theorem unInstallCallSites_spec (hd : d.Coherent) :
    PatchesSites items d
      (fun sites k k' => unInstallCallSites (sites.map (siteLauncher d newfn · true)) k = some k')
      (SitePatched newfn) (fun _ v => v = none) := by
  refine patchesSites_of_step (fun k => rfl) fun {site sites k p} hk hpre => ?_
  obtain ⟨w, hw, -, hp⟩ := hpre
  have hpop : k.driver.undoPoke1WordPop site w (d.memory site) =
      some (d.patchedWith (update p site none)) := by
    rw [hk.driver]
    exact patchedWith_pop hd hp
  have huninstall : (siteLauncher d newfn site true).unInstallNoOtherAlreadyInstalled k =
      some { k with driver := d.patchedWith (update p site none) } := by
    simp [unInstallNoOtherAlreadyInstalled, siteLauncher, new, createSplicingInsn, hw, hpop,
      freeLater]
  refine ⟨none, rfl, fun k' hrun => ?_⟩
  rw [map_cons, unInstallCallSites, huninstall, bind_eq_bind, bind_some]
  exact hrun

/-! ## The two states -/

/-- The call sites that a request patches. -/
def patchedSites (fn : ReplacedFn) (q : ReplaceRequest 64) : List Kptr :=
  if q.replaceCallSitesToo then fn.callSites else []

/-- There is no request, and nothing is patched. -/
structure Idle (fn : ReplacedFn) (p : Patches) (s : ReplaceFunction) : Prop where
  requests : s.presentRequests = []
  launcher : s.theLauncher = none
  launchers : s.patchedUpCallSites = []
  unpatched : ∀ addr ∈ fn.oldfn :: fn.callSites, p addr = none

/-- There is one request, and it is installed. -/
structure Busy (fn : ReplacedFn) (items : Set Kptr) (d : KernelDriver) (p : Patches)
    (s : ReplaceFunction) (q : ReplaceRequest 64) : Prop where
  requests : s.presentRequests = [q]
  launcher : ∃ l, s.theLauncher = some l ∧ l.Installed s.kernel items d p ∧
    l.fromAddr = fn.oldfn ∧ l.toAddr = q.newFn
  launchers : s.patchedUpCallSites =
    (patchedSites fn q).map (siteLauncher d q.newFn · true)
  patched : ∀ site ∈ patchedSites fn q, SitePatched q.newFn site (p site)
  unpatched : ∀ site ∈ fn.callSites, site ∉ patchedSites fn q → p site = none

/-- Of one request at a time, what has been done can be undone. -/
def Inv (fn : ReplacedFn) (items : Set Kptr) (d : KernelDriver) (s : ReplaceFunction) : Prop :=
  ∃ p, s.kernel.Patched items d p ∧ (Idle fn p s ∨ ∃ q, Busy fn items d p s q)

theorem mem_patchedSites {site : Kptr} (h : site ∈ patchedSites fn q) :
    q.replaceCallSitesToo = true ∧ site ∈ fn.callSites := by
  rw [patchedSites] at h
  split at h
  next hflag => exact ⟨hflag, h⟩
  next => exact (not_mem_nil h).elim

theorem nodup_patchedSites (hfn : fn.Ok items) (q : ReplaceRequest 64) :
    (patchedSites fn q).Nodup := by
  rw [patchedSites]
  split
  · exact (nodup_cons.mp hfn.nodup).2
  · exact nodup_nil

theorem makeCallLaunchers_eq (hq : Launchable fn k q)
    (horig : ∀ site ∈ fn.callSites, k.driver.memory site = d.memory site) :
    makeCallLaunchers fn k q.newFn q.replaceCallSitesToo =
      some ((patchedSites fn q).map (siteLauncher d q.newFn · false)) := by
  rw [makeCallLaunchers, patchedSites]
  split
  next hflag =>
    have hmake : ∀ site ∈ fn.callSites, makeCallLauncher fn k q.newFn site =
        some (siteLauncher d q.newFn site false) := by
      intro site hmem
      obtain ⟨-, hcall, hrange⟩ := hq.sites hflag site hmem
      simp only [makeCallLauncher, hcall, peek1Word, check_pos, horig site hmem,
        callLauncher, hrange, run_do]
      rfl
    rw [check_pos (all_eq_true.mpr fun site hmem => (hq.sites hflag site hmem).1), bind_eq_bind,
      bind_some, mapM_congr hmake]
    exact mapM_pure
  next => rfl

/-- Patching call sites does not affect the launcher at the entry. -/
theorem installed_of_sites (hfn : fn.Ok items) {l : Launcher} {p' : Patches}
    (hl : l.Installed k items d p) (hfrom : l.fromAddr = fn.oldfn)
    (hsame : ∀ a, a ∉ patchedSites fn q → p' a = p a) :
    l.Installed { k with driver := d.patchedWith p' } items d p' := by
  refine hl.congr (fun a ha => hsame a fun hmem => ?_) (fun _ h _ => h) fun _ h => h
  have hmem := (mem_patchedSites hmem).2
  have hne : a ≠ fn.oldfn := ne_of_mem_of_not_mem hmem (nodup_cons.mp hfn.nodup).1
  obtain ⟨item, hitem, ha⟩ := (mem_footprint.mp ha).resolve_left (hfrom ▸ hne)
  exact hfn.clear a (mem_cons_of_mem _ hmem) item (hl.holding item hitem).1.item ha

/-! ## Steps -/

section Steps

variable (hfn : fn.Ok items) (hd : d.Coherent) (hk : s.kernel.Patched items d p)

include hfn hd hk

/-- **The first request** is installed. -/
theorem Idle.make (hs : Idle fn p s) (hq : Launchable fn s.kernel q) :
    ∃ s' p', s.makeRequestAndInstallNow fn q = some s' ∧ s'.kernel.Patched items d p' ∧
      Busy fn items d p' s' q := by
  have hentry : fn.oldfn ∈ fn.oldfn :: fn.callSites := mem_cons_self ..
  obtain ⟨hnotMem, -⟩ := nodup_cons.mp hfn.nodup
  have horig : ∀ addr ∈ fn.oldfn :: fn.callSites, s.kernel.driver.memory addr = d.memory addr := by
    intro addr hmem
    rw [hk.driver, patchedWith_memory_of_none (hs.unpatched addr hmem)]
  obtain ⟨l₀, k₁, l, p₁, hpick, hinstall, hk₁, hl, hfrom, hto, hsame₁⟩ :=
    exists_installed hd hk (hs.unpatched _ hentry) fn.deadRegsAtStartOfOldFn hfn.heap
      (hfn.clear _ hentry) hfn.low (hfn.aligned _ hentry) hq.aligned hq.reachable
  have hsites : ∀ site ∈ patchedSites fn q, Clear items site ∧ site.toNat % 4 = 0 ∧
      p₁ site = none ∧ inRangeOfCall site q.newFn = some true := by
    intro site hmem
    obtain ⟨hflag, hmem⟩ := mem_patchedSites hmem
    have hsite := mem_cons_of_mem fn.oldfn hmem
    refine ⟨hfn.clear site hsite, hfn.aligned site hsite, ?_, (hq.sites hflag site hmem).2.2⟩
    rw [hsame₁ site (ne_of_mem_of_not_mem hmem hnotMem) (hfn.clear site hsite),
      hs.unpatched site hsite]
  obtain ⟨p₂, hinstallSites, hk₂, hpatched, hsame₂⟩ :=
    installCallSites_spec fn hd hq.aligned (patchedSites fn q) hk₁ (nodup_patchedSites hfn q) hsites
  have hl₂ := installed_of_sites hfn hl hfrom hsame₂
  refine ⟨⟨{ k₁ with driver := d.patchedWith p₂ }, [q], some l,
    (patchedSites fn q).map (siteLauncher d q.newFn · true)⟩, p₂, ?_, hk₂,
    ⟨rfl, ⟨l, rfl, hl₂, hfrom, hto⟩, rfl, hpatched, ?_⟩⟩
  · simp [makeRequestAndInstallNow, makeLaunchers, peek1Word, horig _ hentry, hpick,
      makeCallLaunchers_eq hq fun site hmem => horig site (mem_cons_of_mem _ hmem), installNow,
      hs.requests, installFirst, hs.launcher, hs.launchers, check_pos, hinstall, hinstallSites]
  · intro site hmem hnot
    have hsite := mem_cons_of_mem fn.oldfn hmem
    rw [hsame₂ site hnot, hsame₁ site (ne_of_mem_of_not_mem hmem hnotMem) (hfn.clear site hsite),
      hs.unpatched site hsite]

/-- **Removing the only request** puts all instructions back. -/
theorem Busy.remove (hs : Busy fn items d p s q) :
    ∃ s' p', s.removeRequestAndUninstallIfAppropriateNow fn q.client q.reqid = some s' ∧
      s'.kernel.Patched items d p' ∧ Idle fn p' s' := by
  obtain ⟨l, hlauncher, hl, hfrom, hto⟩ := hs.launcher
  obtain ⟨hnotMem, -⟩ := nodup_cons.mp hfn.nodup
  have hsites : ∀ site ∈ patchedSites fn q,
      Clear items site ∧ SitePatched q.newFn site (p site) := by
    intro site hmem
    exact ⟨hfn.clear site (mem_cons_of_mem _ (mem_patchedSites hmem).2), hs.patched site hmem⟩
  obtain ⟨p₁, hunInstallSites, hk₁, hnone, hsame₁⟩ :=
    unInstallCallSites_spec hd (patchedSites fn q) hk (nodup_patchedSites hfn q) hsites
  obtain ⟨k₂, hunInstall, hk₂⟩ := (installed_of_sites hfn hl hfrom hsame₁).unInstall hd hk₁
    (hfrom ▸ hfn.clear fn.oldfn (mem_cons_self ..))
  rw [hfrom] at hk₂
  refine ⟨⟨k₂, [], none, []⟩, _, ?_, hk₂, ⟨rfl, rfl, rfl, fun addr hmem => ?_⟩⟩
  · have hfind : findRequest [q] q.client q.reqid = some 0 := by simp [findRequest]
    simp only [removeRequestAndUninstallIfAppropriateNow, hs.requests, hfind, removeAt,
      length_singleton, ne_eq, not_true, if_false, Nat.lt_irrefl, zero_add,
      unInstallWithNoReplacement, hs.launchers, hunInstallSites, hlauncher, hunInstall, check_pos,
      run_do, dropLast_singleton]
    rfl
  · rcases mem_cons.mp hmem with rfl | hmem
    · exact update_self ..
    · rw [update_of_ne (ne_of_mem_of_not_mem hmem hnotMem)]
      by_cases hsite : addr ∈ patchedSites fn q
      · exact hnone addr hsite
      · rw [hsame₁ addr hsite, hs.unpatched addr hmem hsite]

/-- **Freeing a springboard** of an earlier request does not affect the present one. -/
theorem exists_freeSpringboard (hs : Idle fn p s ∨ ∃ q, Busy fn items d p s q) :
    ∃ s', s.perform fn .freeSpringboard = some s' ∧ Inv fn items d s' ∧
      s'.presentRequests = s.presentRequests := by
  obtain ⟨k', p', hdoNow, hk', hsame, hinUse, hevents⟩ := hk.doNow hfn.heap hd
  have hclear : ∀ addr ∈ fn.oldfn :: fn.callSites, p' addr = p addr := by
    intro addr hmem
    exact hsame addr fun event he => hfn.clear addr hmem event.1 (hk.pending event he).item
  refine ⟨{ s with kernel := k' }, ?_, ⟨p', hk', ?_⟩, rfl⟩
  · rw [perform, hdoNow]
    rfl
  · rcases hs with hs | ⟨q, hs⟩
    · refine Or.inl { hs with unpatched := fun addr hmem => ?_ }
      rw [hclear addr hmem, hs.unpatched addr hmem]
    · obtain ⟨l, hlauncher, hl, hfrom, hto⟩ := hs.launcher
      have hl' := hl.doNow hfn.heap hk (hfrom ▸ hfn.clear fn.oldfn (mem_cons_self ..))
        hsame hinUse hevents
      refine .inr ⟨q, { hs with
        launcher := ⟨l, hlauncher, hl', hfrom, hto⟩
        patched := fun site hmem => ?_
        unpatched := fun site hmem hnot => ?_ }⟩
      · rw [hclear site (mem_cons_of_mem _ (mem_patchedSites hmem).2)]
        exact hs.patched site hmem
      · rw [hclear site (mem_cons_of_mem _ hmem), hs.unpatched site hmem hnot]

omit hfn hd in
theorem Idle.shows (hs : Idle fn p s) :
    Shows fn d.memory s.kernel.driver.memory s.presentRequests := by
  rw [hs.requests, hk.driver]
  refine ⟨(fun q hq => nomatch hq), (fun q hq => nomatch hq), fun _ addr hmem => ?_⟩
  exact patchedWith_memory_of_none (hs.unpatched addr hmem)

omit hfn hd in
theorem Busy.shows (hs : Busy fn items d p s q) :
    Shows fn d.memory s.kernel.driver.memory s.presentRequests := by
  obtain ⟨l, -, hl, hfrom, hto⟩ := hs.launcher
  rw [hs.requests, hk.driver]
  have hlast : ∀ q', [q].getLast? = some q' → q' = q := fun q' h => (some.inj h).symm
  refine ⟨fun q' hq' => ?_, fun q' hq' site hmem => ?_, fun h => nomatch h⟩
  · rw [hlast q' hq', ← hfrom, ← hto]
    exact hl.goes _ fun _ _ => rfl
  · rw [hlast q' hq']
    split
    next hflag =>
      obtain ⟨w, -, hcall, hp⟩ := hs.patched site (by rwa [patchedSites, if_pos hflag])
      rwa [patchedWith_memory_of_some hp]
    next hflag =>
      have hnot : site ∉ patchedSites fn q := fun h => hflag (mem_patchedSites h).1
      exact patchedWith_memory_of_none (hs.unpatched site hmem hnot)

end Steps

/-! ## A request over another one -/

/-- A new launcher records what is in memory. -/
theorem restoreTo_of_makeLaunchers {replaceCallSitesToo : Bool} {new : Launcher × List Launcher}
    (h : makeLaunchers fn k newfn replaceCallSitesToo = some new) :
    new.1.installed = false ∧ new.1.whenAllDoneRestoreToThisInsn = k.driver.memory fn.oldfn := by
  obtain ⟨l, hpick, hsites⟩ := exists_of_bind h
  obtain ⟨sites, -, hpair⟩ := exists_of_bind hsites
  obtain rfl := some.inj hpair
  obtain ⟨inBicc, -, hl⟩ := exists_of_bind hpick
  obtain rfl := some.inj hl
  exact ⟨rfl, rfl⟩

/-- A launcher is only installed over one that has recorded the same instruction. -/
theorem restoreTo_of_installOverPrevious {l new : Launcher} {sites : List Launcher}
    (hl : s.theLauncher = some l) (hnew : new.installed = false)
    (h : s.installOverPrevious fn q new sites = some s') :
    l.whenAllDoneRestoreToThisInsn = new.whenAllDoneRestoreToThisInsn := by
  obtain ⟨_, -, h⟩ := exists_of_bind h
  obtain ⟨l', hl', h⟩ := exists_of_bind h
  obtain rfl := mem_unique hl hl'
  obtain ⟨curr, -, h⟩ := exists_of_bind h
  obtain ⟨installed, hinstall, -⟩ := exists_of_bind h
  rw [installOverwritingExisting, hnew] at hinstall
  obtain ⟨_, hcheck, -⟩ := exists_of_bind hinstall
  exact check_eq_some.mp hcheck

/-- **No request over another one.** The launcher of the second request records the branch of the
first one as the instruction to be put back. -/
theorem Busy.make_eq_none (hs : Busy fn items d p s q)
    (hbranch : s.kernel.driver.memory fn.oldfn ≠ d.memory fn.oldfn) (q' : ReplaceRequest 64) :
    s.makeRequestAndInstallNow fn q' = none := by
  obtain ⟨l, hlauncher, hl, hfrom, -⟩ := hs.launcher
  rw [eq_none_iff_forall_ne_some]
  intro s' hmake
  obtain ⟨new, hnew, hmake⟩ := exists_of_bind hmake
  obtain ⟨s₁, hnow, -⟩ := exists_of_bind hmake
  rw [installNow, hs.requests] at hnow
  obtain ⟨hinstalled, hrestore⟩ := restoreTo_of_makeLaunchers hnew
  apply hbranch
  calc s.kernel.driver.memory fn.oldfn = new.1.whenAllDoneRestoreToThisInsn := hrestore.symm
    _ = l.whenAllDoneRestoreToThisInsn :=
        (restoreTo_of_installOverPrevious hlauncher hinstalled hnow).symm
    _ = d.memory fn.oldfn := by rw [hl.restoreTo, hfrom]

/-! ## Runs -/

/-- Each step keeps the invariant, and the list of requests is the one of those outstanding. -/
theorem Inv.perform (hfn : fn.Ok items) (hd : d.Coherent) (hs : Inv fn items d s) {op : Op}
    (hop : StepOk fn s op) :
    ∃ s', s.perform fn op = some s' ∧ Inv fn items d s' ∧
      s'.presentRequests = outstanding s.presentRequests op := by
  obtain ⟨p, hk, hs⟩ := hs
  cases op with
  | make q =>
    obtain ⟨hnone, hq⟩ := hop
    rcases hs with hs | ⟨q₀, hs⟩
    · obtain ⟨s', p', hmake, hk', hs'⟩ := hs.make hfn hd hk hq
      exact ⟨s', hmake, ⟨p', hk', .inr ⟨q, hs'⟩⟩, by rw [hs'.requests, hnone]; rfl⟩
    · rw [hs.requests] at hnone
      cases hnone
  | remove client reqid =>
    obtain ⟨q, hmem, rfl, rfl⟩ := hop
    rcases hs with hs | ⟨q₀, hs⟩
    · rw [hs.requests] at hmem
      cases hmem
    · rw [hs.requests] at hmem
      obtain rfl := mem_singleton.mp hmem
      obtain ⟨s', p', hremove, hk', hs'⟩ := hs.remove hfn hd hk
      refine ⟨s', hremove, ⟨p', hk', .inl hs'⟩, ?_⟩
      rw [hs'.requests, hs.requests]
      simp [outstanding]
  | freeSpringboard => exact exists_freeSpringboard hfn hd hk hs

theorem Inv.run (hfn : fn.Ok items) (hd : d.Coherent) : ∀ (ops : List Op) {s : ReplaceFunction},
    Inv fn items d s → s.StepsOk fn ops → ∃ s', s.run fn ops = some s' ∧ Inv fn items d s' ∧
        s'.presentRequests = ops.foldl outstanding s.presentRequests := by
  intro ops
  induction ops with
  | nil =>
    intro s hs _
    exact ⟨s, rfl, hs, rfl⟩
  | cons op ops ih =>
    intro s hs hops
    obtain ⟨s₁, hstep, hs₁, hrequests⟩ := hs.perform hfn hd hops.1
    obtain ⟨s', hrun, hs', hrequests'⟩ := ih hs₁ (hops.2 s₁ hstep)
    refine ⟨s', ?_, hs', ?_⟩
    · rw [ReplaceFunction.run, hstep]
      exact hrun
    · rw [hrequests', hrequests, foldl_cons]

theorem inv_start (fn : ReplacedFn) (items : Set Kptr) (d : KernelDriver)
    (springboards : List Kptr) : Inv fn items d (start d springboards) := by
  refine ⟨fun _ => none, ⟨rfl, fun _ _ _ _ _ => rfl, ?_, nodup_nil⟩,
    .inl ⟨rfl, rfl, rfl, fun _ _ => rfl⟩⟩
  intro event he
  cases he

/-- **One request at a time.** If every request is made while there is no other, no assertion
fails, and after every step memory shows the newest request; without one, the entry and the call
sites are as they were. A request over another one fails an assertion, unless the entry held its
branch from the start. -/
theorem run_of_stepsOk (hfn : fn.Ok items) (hd : d.Coherent) (springboards : List Kptr)
    (ops : List Op) (hops : (start d springboards).StepsOk fn ops) :
    ∃ s, (start d springboards).run fn ops = some s ∧
      s.presentRequests = ops.foldl outstanding [] ∧
      Shows fn d.memory s.kernel.driver.memory s.presentRequests ∧
      (s.presentRequests ≠ [] → s.kernel.driver.memory fn.oldfn ≠ d.memory fn.oldfn →
        ∀ q, s.makeRequestAndInstallNow fn q = none) := by
  obtain ⟨s, hrun, ⟨p, hk, hs⟩, hrequests⟩ :=
    (inv_start fn items d springboards).run hfn hd ops hops
  refine ⟨s, hrun, hrequests, ?_, fun hpresent hbranch q => ?_⟩
  · rcases hs with hs | ⟨q, hs⟩
    · exact hs.shows hk
    · exact hs.shows hk
  · rcases hs with hs | ⟨q₀, hs⟩
    · exact absurd hs.requests hpresent
    · exact hs.make_eq_none hbranch q

/-- A function with one call site, and one springboard for those who need it. -/
def sampleFn : ReplacedFn where
  oldfn := 0x1000
  callSites := [0x3000]
  findFn := fun _ => true
  deadRegsAtStartOfOldFn := SparcRegSet.emptyset
  theSpringBoardHeap := fun springboards _ _ _ =>
    if springboards.contains 0x5000 then none else some 0x5000

/-- The call site holds a call, and all else is `save`. -/
def sampleDriver : KernelDriver where
  memory addr := if addr = 0x3000 then 0x7FFFF800 else 0x9DE3BF40
  theUndoablePokes _ := none

theorem mem_sampleFn {addr : Kptr} (h : addr ∈ sampleFn.oldfn :: sampleFn.callSites) :
    addr = 0x1000 ∨ addr = 0x3000 := by
  simpa [sampleFn] using h

theorem sampleFn_ok : sampleFn.Ok {0x5000} where
  heap := by
    refine ⟨fun {springboards range f t item} h => ?_, ?_, ?_⟩
    · change (if springboards.contains (0x5000 : Kptr) then none else some 0x5000) = some item at h
      split at h
      next => cases h
      next hfree =>
        obtain rfl := some.inj h
        exact ⟨rfl, fun hmem => hfree (contains_iff_mem.mpr hmem)⟩
    · rintro item rfl
      rfl
    · rintro item rfl item' rfl hne
      exact absurd rfl hne
  low := by decide
  aligned := by
    intro addr hmem
    rcases mem_sampleFn hmem with rfl | rfl
    · rfl
    · rfl
  nodup := by decide
  clear := by
    rintro addr hmem item rfl
    rcases mem_sampleFn hmem with rfl | rfl
    · decide
    · decide

theorem sampleDriver_coherent : sampleDriver.Coherent := by
  intro addr info h
  cases h

/-- A request of the first client. -/
def sampleRequest (reqid : Nat) (newFn : Kptr) (replaceCallSitesToo : Bool) : ReplaceRequest 64 :=
  ⟨1, reqid, newFn, replaceCallSitesToo⟩

theorem launchable_sampleRequest :
    Launchable sampleFn (start sampleDriver []).kernel (sampleRequest 1 0x2000 true) where
  aligned := rfl
  reachable := .inl rfl
  sites := by
    intro _ site hmem
    obtain rfl := mem_singleton.mp hmem
    exact ⟨rfl, rfl, rfl⟩

theorem run_of_stepsOk_sample :
    ∃ s, (start sampleDriver []).run sampleFn
        [.make (sampleRequest 1 0x2000 true), .remove 1 1] = some s ∧
      s.presentRequests = [] ∧
      Shows sampleFn sampleDriver.memory s.kernel.driver.memory s.presentRequests := by
  have hmake : StepOk sampleFn (start sampleDriver []) (.make (sampleRequest 1 0x2000 true)) :=
    ⟨rfl, launchable_sampleRequest⟩
  obtain ⟨s₁, hstep, -, hrequests₁⟩ :=
    (inv_start sampleFn {0x5000} sampleDriver []).perform sampleFn_ok sampleDriver_coherent hmake
  have hops : (start sampleDriver []).StepsOk sampleFn
      [.make (sampleRequest 1 0x2000 true), .remove 1 1] := by
    refine ⟨hmake, fun s' hs' => ⟨⟨sampleRequest 1 0x2000 true, ?_, rfl, rfl⟩, fun _ _ => trivial⟩⟩
    rw [← mem_unique hstep hs', hrequests₁]
    exact mem_cons_self ..
  obtain ⟨s, hrun, hrequests, hshows, -⟩ :=
    run_of_stepsOk sampleFn_ok sampleDriver_coherent [] _ hops
  exact ⟨s, hrun, hrequests, hshows⟩

/-- Two requests to jump to functions near by, one after the other. -/
theorem second_request_fails_assertion :
    (∃ s, (start sampleDriver []).run sampleFn [.make (sampleRequest 1 0x2000 false)] = some s) ∧
      (∃ s, (start sampleDriver []).run sampleFn [.make (sampleRequest 2 0x4000 false)] = some s) ∧
      (start sampleDriver []).run sampleFn
        [.make (sampleRequest 1 0x2000 false), .make (sampleRequest 2 0x4000 false)] = none := by
  refine ⟨⟨_, rfl⟩, ⟨_, rfl⟩, rfl⟩

end ReplaceFunction

end Kerninst
