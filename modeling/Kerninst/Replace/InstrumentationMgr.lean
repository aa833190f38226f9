import Mathlib.Data.List.AList
import Kerninst.Lib.Checked
import Kerninst.Lib.LinkedList

/-!
# Replacing functions

The instrumentation manager replaces a function by putting a jump to another one at its entry.
There may be several requests to replace one function; the newest is the one that is installed,
and older ones wait for it to be removed. A request to jump to a function that is itself replaced
is rewritten to go where that function jumps to.

`installed` is the jump at the entry of each function. Following these jumps should always end at
a function that is not replaced (`Settled`). A new jump from `old` ends all chains exactly if the
chain from its target does not come back to `old`, and nothing in `replaceAFunction` checks that:

* the rewriting follows the chain from `new` to its end, which may be `old` itself;
* a second request on one function is not rewritten and not compared with anything.

A request that is not the newest of its function is taken out of the vector by `*i++ = *(i+1)`,
which uses and changes `i` in no particular order, so that what is installed next is undefined.

`alwaysSettled_iff_alwaysSafe` says that a check against all this (`Safe`) is all that is needed.

Whether the launchers of a request can be installed is left open (`Platform`): the result holds
whatever the answers are, at each message anew.
-/

namespace Kerninst

open List Function Option AList

variable {w : Nat}

/-- A request in `presentRequests`. -/
structure ReplaceRequest (w : Nat) where
  client : Nat
  reqid : Nat
  newFn : BitVec w
  replaceCallSitesToo : Bool
deriving DecidableEq

/-- What decides at some time whether the assertions outside of the manager hold. -/
structure Platform (w : Nat) where
  /-- `findFn` finds a function that starts here -/
  isFn : BitVec w → Bool
  /-- `makeLaunchers` and `installNow` succeed for an old function and its present requests -/
  installs : BitVec w → List (ReplaceRequest w) → BitVec w → Bool → Bool
  /-- `unInstallWithNoReplacement` succeeds -/
  uninstalls : BitVec w → ReplaceRequest w → Bool

/-- `instrumentationMgr`, with the tables of its clients. A `replaceFunction` is the list of its
requests, newest last. -/
structure InstrumentationMgr (w : Nat) where
  replacedFnsMap : AList fun _ : BitVec w => List (ReplaceRequest w)
  /-- the function that is replaced, by the function that replaces it -/
  replacementFnsMap : AList fun _ : BitVec w => BitVec w
  /-- the two functions, by client and request id -/
  replaceFnIdMap : AList fun _ : Nat × Nat => BitVec w × BitVec w

/-- Why a message is not processed. -/
inductive Failure
  | assertion
  /-- the program has no defined behaviour -/
  | undefined
  /-- a request is submitted more often than the bound says -/
  | unfinished
deriving DecidableEq

/-- A step that fails only by an assertion. -/
def asserting {α : Type} : Option α → Except Failure α
  | some a => .ok a
  | none => .error .assertion

theorem asserting_eq_ok {α : Type} {o : Option α} {a : α} :
    asserting o = .ok a ↔ o = some a := by
  cases o <;> simp [asserting]

theorem asserting_ne_error {α : Type} (o : Option α) {e : Failure} (he : e ≠ .assertion) :
    asserting o ≠ .error e := by
  cases o with
  | none => exact fun h => he (Except.error.inj h).symm
  | some a => exact fun h => nomatch h

/-- A step that fails otherwise than by an assertion comes after those that succeed. -/
theorem exists_of_asserting_bind {α β : Type} {o : Option α} {f : α → Except Failure β}
    {e : Failure} (he : e ≠ .assertion) (h : asserting o >>= f = .error e) :
    ∃ a, o = some a ∧ f a = .error e := by
  cases o with
  | none => exact absurd (Except.error.inj h).symm he
  | some a => exact ⟨a, rfl, h⟩

/-! ## The requests of one function -/

/-- The new function of the newest request. -/
def getPresentlyInstalledNewFn (presentRequests : List (ReplaceRequest w)) : Option (BitVec w) :=
  presentRequests.getLast?.map ReplaceRequest.newFn

/-- The position of a request. -/
def findRequest (presentRequests : List (ReplaceRequest w)) (client reqid : Nat) : Option Nat :=
  presentRequests.findIdx? fun q => q.client == client && q.reqid == reqid

section

variable (p : Platform w) (oldfn : BitVec w) (presentRequests : List (ReplaceRequest w))

def makeRequestAndInstallNow (q : ReplaceRequest w) : Option (List (ReplaceRequest w)) := do
  check (p.installs oldfn presentRequests q.newFn q.replaceCallSitesToo = true)
  pure (presentRequests ++ [q])

/-- The newest request gives way to the one below it, or to none. -/
def uninstallNewest : Option (List (ReplaceRequest w)) :=
  if 1 < presentRequests.length then do
    let below ← presentRequests[presentRequests.length - 2]?
    check (p.installs oldfn presentRequests below.newFn below.replaceCallSitesToo = true)
    pure presentRequests.dropLast
  else do
    let q ← presentRequests.getLast?
    check (p.uninstalls oldfn q = true)
    pure []

def removeRequestAndUninstallIfAppropriateNow (client reqid : Nat) :
    Except Failure (List (ReplaceRequest w)) := do
  let i ← asserting (findRequest presentRequests client reqid)
  if i + 1 ≠ presentRequests.length then
    -- not the installed one: `*i++ = *(i+1)` is to slide the others
    .error .undefined
  else asserting (uninstallNewest p oldfn presentRequests)

end

/-! ## The manager -/

namespace InstrumentationMgr

def empty : InstrumentationMgr w := ⟨∅, ∅, ∅⟩

variable (p : Platform w)

/-- The end of `replaceAFunction`: neither function was replaced before. The tables' `set` fails
for a key that is already there. -/
def newReplacement (m : InstrumentationMgr w) (q : ReplaceRequest w) (oldFn : BitVec w) :
    Option (InstrumentationMgr w) := do
  check (p.isFn oldFn = true)
  check (p.isFn q.newFn = true)
  check (q.newFn ∉ m.replacementFnsMap)
  check ((q.client, q.reqid) ∉ m.replaceFnIdMap)
  let presentRequests ← makeRequestAndInstallNow p oldFn [] q
  pure
    { replacedFnsMap := m.replacedFnsMap.insert oldFn presentRequests
      replacementFnsMap := m.replacementFnsMap.insert q.newFn oldFn
      replaceFnIdMap := m.replaceFnIdMap.insert (q.client, q.reqid) (oldFn, q.newFn) }

/-- A request on a function that is already replaced. -/
def changeReplacement (m : InstrumentationMgr w) (q : ReplaceRequest w) (oldFn : BitVec w)
    (theReplaceFn : List (ReplaceRequest w)) : Option (InstrumentationMgr w) := do
  let _priorReplacementAddr ← getPresentlyInstalledNewFn theReplaceFn
  check (p.isFn q.newFn = true)
  let presentRequests ← makeRequestAndInstallNow p oldFn theReplaceFn q
  pure { m with replacedFnsMap := m.replacedFnsMap.insert oldFn presentRequests }

/-- `replaceAFunction`, with a bound on how often the request is submitted. -/
def replaceAFunction : Nat → InstrumentationMgr w → ReplaceRequest w → BitVec w →
    Except Failure (InstrumentationMgr w)
  | 0, _, _, _ => .error .unfinished
  | fuel + 1, m, q, oldFn => do
    asserting (check (oldFn ≠ 0 ∧ q.newFn ≠ 0))
    match m.replacedFnsMap.lookup oldFn, m.replacedFnsMap.lookup q.newFn with
    | some theReplaceFn, _ => asserting (changeReplacement p m q oldFn theReplaceFn)
    | none, some existingReplaceFn => do
      let newFn2 ← asserting (getPresentlyInstalledNewFn existingReplaceFn)
      replaceAFunction fuel m { q with newFn := newFn2 } oldFn
    | none, none => asserting (newReplacement p m q oldFn)

/-- The last part of `unReplaceAFunction`. -/
def forget (m : InstrumentationMgr w) (client reqid : Nat)
    (replacedFn replacementFn : BitVec w) (presentRequests : List (ReplaceRequest w)) :
    Option (InstrumentationMgr w) :=
  if presentRequests = [] then do
    check (replacementFn ∈ m.replacementFnsMap)
    pure
      { replacedFnsMap := m.replacedFnsMap.erase replacedFn
        replacementFnsMap := m.replacementFnsMap.erase replacementFn
        replaceFnIdMap := m.replaceFnIdMap.erase (client, reqid) }
  else
    pure
      { m with
        replacedFnsMap := m.replacedFnsMap.insert replacedFn presentRequests
        replaceFnIdMap := m.replaceFnIdMap.erase (client, reqid) }

def unReplaceAFunction (m : InstrumentationMgr w) (client reqid : Nat) :
    Except Failure (InstrumentationMgr w) := do
  let fns ← asserting (m.replaceFnIdMap.lookup (client, reqid))
  let theReplaceFn ← asserting (m.replacedFnsMap.lookup fns.1)
  let presentRequests ←
    removeRequestAndUninstallIfAppropriateNow p fns.1 theReplaceFn client reqid
  asserting (m.forget client reqid fns.1 fns.2 presentRequests)

/-- A message of a client. -/
inductive Op (w : Nat)
  | replace (q : ReplaceRequest w) (oldFn : BitVec w)
  | unReplace (client reqid : Nat)

/-- A chain visits each replaced function at most once, so a request that is submitted more often
would be submitted for ever. -/
def perform (m : InstrumentationMgr w) : Op w → Except Failure (InstrumentationMgr w)
  | .replace q oldFn => replaceAFunction p (m.replacedFnsMap.keys.length + 1) m q oldFn
  | .unReplace client reqid => unReplaceAFunction p m client reqid

/-! ## Chains of jumps -/

/-- The jump at the entry of a function. -/
def installed (m : InstrumentationMgr w) (fn : BitVec w) : Option (BitVec w) :=
  (m.replacedFnsMap.lookup fn).bind getPresentlyInstalledNewFn

/-- Following the jumps from any function ends at a function that is not replaced. -/
def Settled (m : InstrumentationMgr w) : Prop :=
  ∀ fn, ∃ chain last, Links m.installed (some fn) (chain ++ [last]) ∧ last ∉ m.replacedFnsMap

/-- The function that a request is on, all requests on it, and the position of this one. -/
def located (m : InstrumentationMgr w) (client reqid : Nat) :
    Option (BitVec w × List (ReplaceRequest w) × Nat) := do
  let fns ← m.replaceFnIdMap.lookup (client, reqid)
  let theReplaceFn ← m.replacedFnsMap.lookup fns.1
  let i ← findRequest theReplaceFn client reqid
  pure (fns.1, theReplaceFn, i)

/-- **The missing check.** The function that `oldFn` is about to jump to must not lead back to
it: the requested one, or the one of the request below when the newest is removed. No other
request may be removed. -/
def Safe (m : InstrumentationMgr w) : Op w → Prop
  | .replace q oldFn => ∀ chain, Links m.installed (some q.newFn) chain → oldFn ∉ chain
  | .unReplace client reqid => ∀ oldFn reqs i, m.located client reqid = some (oldFn, reqs, i) →
      i + 1 = reqs.length ∧ ∀ newFn, getPresentlyInstalledNewFn reqs.dropLast = some newFn →
        ∀ chain, Links m.installed (some newFn) chain → oldFn ∉ chain

/-- The manager is settled now and after each of the messages, as long as no assertion fails. After
a step without a defined behaviour it need not be. -/
def AlwaysSettled (m : InstrumentationMgr w) : List (Platform w × Op w) → Prop
  | [] => m.Settled
  | (p, op) :: ops => m.Settled ∧ m.perform p op ≠ .error .undefined ∧
      ∀ m', m.perform p op = .ok m' → m'.AlwaysSettled ops

/-- Each of the messages that does not fail an assertion is safe when it is processed. -/
def AlwaysSafe (m : InstrumentationMgr w) : List (Platform w × Op w) → Prop
  | [] => True
  | (p, op) :: ops => (m.perform p op ≠ .error .assertion → m.Safe op) ∧
      ∀ m', m.perform p op = .ok m' → m'.AlwaysSafe ops

/-- Every replaced function has a request. -/
def Populated (m : InstrumentationMgr w) : Prop :=
  ∀ fn reqs, m.replacedFnsMap.lookup fn = some reqs → reqs ≠ []

variable {p} {m m' : InstrumentationMgr w} {q : ReplaceRequest w} {oldFn fn : BitVec w}
  {reqs : List (ReplaceRequest w)}

theorem getPresentlyInstalledNewFn_concat (reqs : List (ReplaceRequest w)) (q : ReplaceRequest w) :
    getPresentlyInstalledNewFn (reqs ++ [q]) = some q.newFn := by
  simp [getPresentlyInstalledNewFn]

theorem getPresentlyInstalledNewFn_eq_none :
    getPresentlyInstalledNewFn reqs = none ↔ reqs = [] := by
  simp [getPresentlyInstalledNewFn]

theorem installed_of_notMem (h : fn ∉ m.replacedFnsMap) : m.installed fn = none := by
  rw [installed, lookup_eq_none.mpr h, bind_none]

theorem Populated.installed_eq_none (hm : m.Populated) :
    m.installed fn = none ↔ fn ∉ m.replacedFnsMap := by
  refine ⟨fun h hmem => ?_, installed_of_notMem⟩
  obtain ⟨reqs, hreqs⟩ := isSome_iff_exists.mp (lookup_isSome.mpr hmem)
  rw [installed, hreqs, bind_some, getPresentlyInstalledNewFn_eq_none] at h
  exact hm fn reqs hreqs h

/-- Setting the requests of a function redirects its jump. -/
theorem installed_insert (h : m'.replacedFnsMap = m.replacedFnsMap.insert oldFn reqs) :
    m'.installed = update m.installed oldFn (getPresentlyInstalledNewFn reqs) := by
  funext fn
  rw [installed, h]
  rcases eq_or_ne fn oldFn with rfl | hne
  · rw [lookup_insert, bind_some, update_self]
  · rw [lookup_insert_ne hne, update_of_ne hne, installed]

theorem installed_erase (h : m'.replacedFnsMap = m.replacedFnsMap.erase oldFn) :
    m'.installed = update m.installed oldFn none := by
  funext fn
  rw [installed, h]
  rcases eq_or_ne fn oldFn with rfl | hne
  · rw [lookup_erase, bind_none, update_self]
  · rw [lookup_erase_ne hne, update_of_ne hne, installed]

theorem Populated.insert (hm : m.Populated) (hreqs : reqs ≠ [])
    (h : m'.replacedFnsMap = m.replacedFnsMap.insert oldFn reqs) : m'.Populated := by
  intro fn reqs' hl
  rw [h] at hl
  rcases eq_or_ne fn oldFn with rfl | hne
  · rw [lookup_insert, some.injEq] at hl
    exact hl ▸ hreqs
  · rw [lookup_insert_ne hne] at hl
    exact hm fn reqs' hl

theorem Populated.erase (hm : m.Populated)
    (h : m'.replacedFnsMap = m.replacedFnsMap.erase oldFn) : m'.Populated := by
  intro fn reqs hl
  rw [h] at hl
  rcases eq_or_ne fn oldFn with rfl | hne
  · rw [lookup_erase] at hl
    cases hl
  · rw [lookup_erase_ne hne] at hl
    exact hm fn reqs hl

/-- The jumps end if and only if they end at functions that are not replaced. -/
theorem Populated.settled_iff (hm : m.Populated) : m.Settled ↔ Grounded m.installed := by
  refine forall_congr' fun fn => ⟨fun ⟨chain, last, hl, _⟩ => ⟨_, hl⟩, fun ⟨l, hl⟩ => ?_⟩
  rcases eq_nil_or_concat l with rfl | ⟨chain, last, rfl⟩
  · exact absurd hl (by simp)
  · rw [concat_eq_append] at hl
    obtain ⟨mid, hmid, -⟩ := hl.of_append
    exact ⟨chain, last, hl, hm.installed_eq_none.mp hmid.2⟩

/-! ## What the messages do -/

theorem makeRequestAndInstallNow_eq_some {reqs' : List (ReplaceRequest w)}
    (h : makeRequestAndInstallNow p oldFn reqs q = some reqs') : reqs' = reqs ++ [q] := by
  obtain ⟨u, -, h⟩ := exists_of_bind h
  exact (some.inj h).symm

/-- Only the newest request is removed. -/
theorem removeRequest_eq_ok {client reqid : Nat} {reqs' : List (ReplaceRequest w)}
    (h : removeRequestAndUninstallIfAppropriateNow p oldFn reqs client reqid = .ok reqs') :
    ∃ i, findRequest reqs client reqid = some i ∧ i + 1 = reqs.length ∧ reqs' = reqs.dropLast := by
  obtain ⟨i, hi, h⟩ := bind_eq_ok.mp h
  refine ⟨i, asserting_eq_ok.mp hi, ?_⟩
  split at h
  · cases h
  · rename_i hlast
    refine ⟨not_not.mp hlast, ?_⟩
    rw [asserting_eq_ok, uninstallNewest] at h
    split at h
    · obtain ⟨below, -, h⟩ := exists_of_bind h
      obtain ⟨u, -, h⟩ := exists_of_bind h
      exact (some.inj h).symm
    · rename_i hone
      obtain ⟨only, -, h⟩ := exists_of_bind h
      obtain ⟨u, -, h⟩ := exists_of_bind h
      have hempty : reqs.dropLast = [] := by
        rw [← length_eq_zero_iff, length_dropLast]
        omega
      rw [hempty]
      exact (some.inj h).symm

/-- **What a replacement does**: it redirects the jump of one function, to the requested function
if there already was a jump, and otherwise to the end of the chain from there. -/
theorem replaceAFunction_eq_ok (hm : m.Populated) (fuel : Nat) : ∀ {q : ReplaceRequest w},
    replaceAFunction p fuel m q oldFn = .ok m' →
    m'.Populated ∧ ∃ newFn, m'.installed = update m.installed oldFn (some newFn) ∧
      (oldFn ∈ m.replacedFnsMap ∧ newFn = q.newFn ∨ oldFn ∉ m.replacedFnsMap ∧
          ∃ chain, Links m.installed (some q.newFn) (chain ++ [newFn])) := by
  induction fuel with
  | zero => intro q h; cases h
  | succ fuel ih =>
    intro q h
    obtain ⟨u, -, h⟩ := bind_eq_ok.mp h
    split at h
    · rename_i hold
      rw [asserting_eq_ok] at h
      obtain ⟨prior, -, h⟩ := exists_of_bind h
      obtain ⟨u, -, h⟩ := exists_of_bind h
      obtain ⟨reqs, hreqs, h⟩ := exists_of_bind h
      cases h
      rw [makeRequestAndInstallNow_eq_some hreqs]
      refine ⟨hm.insert (by simp) rfl, q.newFn, ?_, .inl ⟨?_, rfl⟩⟩
      · rw [installed_insert rfl, getPresentlyInstalledNewFn_concat]
      · exact lookup_isSome.mp (by rw [hold]; rfl)
    · rename_i hold hnew
      obtain ⟨newFn2, hnewFn2, h⟩ := bind_eq_ok.mp h
      obtain ⟨hm', newFn, hinst, ⟨hmem, -⟩ | ⟨hnot, chain, hchain⟩⟩ := ih h
      · exact absurd hmem (lookup_eq_none.mp hold)
      · have hjump : m.installed q.newFn = some newFn2 := by
          rw [installed, hnew, bind_some, asserting_eq_ok.mp hnewFn2]
        exact ⟨hm', newFn, hinst, .inr ⟨hnot, q.newFn :: chain, rfl, hjump ▸ hchain⟩⟩
    · rename_i hold hnew
      simp only [asserting_eq_ok, newReplacement, do_eq_some] at h
      obtain ⟨-, -, -, -, -, -, -, -, reqs, hreqs, h⟩ := h
      cases h
      rw [makeRequestAndInstallNow_eq_some hreqs]
      refine ⟨hm.insert (by simp) rfl, q.newFn, ?_, .inr ⟨lookup_eq_none.mp hold, [], ?_⟩⟩
      · rw [installed_insert rfl, getPresentlyInstalledNewFn_concat]
      · exact ⟨rfl, installed_of_notMem (lookup_eq_none.mp hnew)⟩

variable {chain : List (BitVec w)}

/-- A chain visits each replaced function at most once, and one that is not replaced. -/
theorem length_chain_le {start : Option (BitVec w)} (h : Links m.installed start chain) :
    chain.length ≤ m.replacedFnsMap.keys.length + 1 := by
  rcases eq_nil_or_concat chain with rfl | ⟨front, last, rfl⟩
  · exact Nat.zero_le _
  rw [concat_eq_append] at h ⊢
  have hnodup := nodup_append.mp h.nodup
  have hsub : front ⊆ m.replacedFnsMap.keys := by
    intro fn hfn
    by_contra hkey
    obtain ⟨l', hl'⟩ := h.eq_concat_of_next_none (mem_append_left _ hfn) (installed_of_notMem hkey)
    have hlast : last = fn := by simpa using (append_inj' hl' rfl).2
    exact hnodup.2.2 fn hfn last (by simp) hlast.symm
  have hle := (subperm_of_subset hnodup.1 hsub).length_le
  rw [length_append, length_singleton]
  omega

/-- **One submission** settles a request, or submits it for the function that is jumped to. -/
theorem replaceAFunction_step (p : Platform w) (m : InstrumentationMgr w) (q : ReplaceRequest w)
    (oldFn : BitVec w) :
    (∃ o, ∀ fuel, replaceAFunction p (fuel + 1) m q oldFn = asserting o) ∨
      ∃ newFn2, m.installed q.newFn = some newFn2 ∧ ∀ fuel,
        replaceAFunction p (fuel + 1) m q oldFn =
          replaceAFunction p fuel m { q with newFn := newFn2 } oldFn := by
  simp only [replaceAFunction]
  by_cases hnonzero : oldFn ≠ 0 ∧ q.newFn ≠ 0
  · rw [check_pos hnonzero]
    cases m.replacedFnsMap.lookup oldFn with
    | some reqs => exact .inl ⟨changeReplacement p m q oldFn reqs, fun _ => rfl⟩
    | none =>
      cases hnew : m.replacedFnsMap.lookup q.newFn with
      | none => exact .inl ⟨newReplacement p m q oldFn, fun _ => rfl⟩
      | some reqs =>
        cases hnewFn2 : getPresentlyInstalledNewFn reqs with
        | none => exact .inl ⟨none, fun _ => by simp only [hnewFn2]; rfl⟩
        | some newFn2 =>
          refine .inr ⟨newFn2, ?_, fun _ => by simp only [hnewFn2]; rfl⟩
          rw [installed, hnew, bind_some, hnewFn2]
  · rw [check_neg hnonzero]
    exact .inl ⟨none, fun _ => rfl⟩

/-- A request is submitted once for each function of the chain at most. -/
theorem replaceAFunction_of_links (p : Platform w) (oldFn : BitVec w) :
    ∀ {q : ReplaceRequest w}, Links m.installed (some q.newFn) chain →
      ∃ o, ∀ fuel, chain.length ≤ fuel → replaceAFunction p fuel m q oldFn = asserting o := by
  induction chain with
  | nil => intro q h; exact absurd h (by simp)
  | cons a chain ih =>
    rintro q ⟨ha, hrest⟩
    obtain rfl : q.newFn = a := some.inj ha
    rcases replaceAFunction_step p m q oldFn with ⟨o, ho⟩ | ⟨newFn2, hjump, hstep⟩
    · refine ⟨o, fun fuel hle => ?_⟩
      cases fuel with
      | zero => cases hle
      | succ fuel => exact ho fuel
    · rw [hjump] at hrest
      obtain ⟨o, ho⟩ := ih (q := { q with newFn := newFn2 }) hrest
      refine ⟨o, fun fuel hle => ?_⟩
      cases fuel with
      | zero => cases hle
      | succ fuel => rw [hstep, ho fuel (Nat.le_of_succ_le_succ hle)]

/-- While the manager is settled a request is settled, or fails an assertion. -/
theorem Settled.exists_perform_replace (hs : m.Settled) (p : Platform w) (q : ReplaceRequest w)
    (oldFn : BitVec w) : ∃ o, m.perform p (.replace q oldFn) = asserting o := by
  obtain ⟨chain, last, hl, -⟩ := hs q.newFn
  obtain ⟨o, ho⟩ := replaceAFunction_of_links p oldFn hl
  exact ⟨o, ho _ (length_chain_le hl)⟩

/-- **The recursion ends** while the manager is settled: a request is submitted at most once more
than there are replaced functions, whatever the bound. -/
theorem Settled.replaceAFunction_ends (hs : m.Settled) (p : Platform w) (q : ReplaceRequest w)
    (oldFn : BitVec w) : ∃ r, r ≠ .error .unfinished ∧ ∀ fuel, m.replacedFnsMap.keys.length < fuel →
      replaceAFunction p fuel m q oldFn = r := by
  obtain ⟨chain, last, hl, -⟩ := hs q.newFn
  obtain ⟨o, ho⟩ := replaceAFunction_of_links p oldFn hl
  exact ⟨_, asserting_ne_error o (by decide), fun fuel hlt =>
    ho fuel (Nat.le_trans (length_chain_le hl) hlt)⟩

/-- **What a removal does**: it redirects the jump of one function to that of the request below,
if there is one. -/
theorem unReplaceAFunction_eq_ok (hm : m.Populated) {client reqid : Nat}
    (h : unReplaceAFunction p m client reqid = .ok m') :
    m'.Populated ∧ ∃ oldFn reqs i, m.located client reqid = some (oldFn, reqs, i) ∧
      i + 1 = reqs.length ∧
      m'.installed = update m.installed oldFn (getPresentlyInstalledNewFn reqs.dropLast) := by
  obtain ⟨fns, hfns, h⟩ := bind_eq_ok.mp h
  obtain ⟨reqs, hreqs, h⟩ := bind_eq_ok.mp h
  obtain ⟨left, hleft, h⟩ := bind_eq_ok.mp h
  obtain ⟨i, hi, hlast, rfl⟩ := removeRequest_eq_ok hleft
  rw [asserting_eq_ok] at hfns hreqs h
  have hlocated : m.located client reqid = some (fns.1, reqs, i) := by
    simp [located, hfns, hreqs, hi]
  unfold forget at h
  split at h
  · rename_i hnil
    obtain ⟨u, -, h⟩ := exists_of_bind h
    cases h
    refine ⟨hm.erase rfl, fns.1, reqs, i, hlocated, hlast, ?_⟩
    rw [installed_erase rfl, getPresentlyInstalledNewFn_eq_none.mpr hnil]
  · rename_i hne
    cases h
    exact ⟨hm.insert hne rfl, fns.1, reqs, i, hlocated, hlast, installed_insert rfl⟩

/-- **What is undefined**: the removal of a request that is not the newest. -/
theorem unReplaceAFunction_eq_error {client reqid : Nat} {e : Failure} (he : e ≠ .assertion)
    (h : unReplaceAFunction p m client reqid = .error e) : e = .undefined ∧
      ∃ oldFn reqs i, m.located client reqid = some (oldFn, reqs, i) ∧ i + 1 ≠ reqs.length := by
  obtain ⟨fns, hfns, h⟩ := exists_of_asserting_bind he h
  obtain ⟨reqs, hreqs, h⟩ := exists_of_asserting_bind he h
  cases hremove : removeRequestAndUninstallIfAppropriateNow p fns.1 reqs client reqid with
  | ok left =>
    rw [hremove] at h
    exact absurd h (asserting_ne_error _ he)
  | error e' =>
    rw [hremove] at h
    obtain rfl : e' = e := Except.error.inj h
    obtain ⟨i, hi, hlast⟩ := exists_of_asserting_bind he hremove
    split at hlast
    · rename_i hne
      refine ⟨(Except.error.inj hlast).symm, fns.1, reqs, i, ?_, hne⟩
      simp [located, hfns, hreqs, hi]
    · exact absurd hlast (asserting_ne_error _ he)

/-- **A message that fails** otherwise than by an assertion is not safe. -/
theorem Settled.not_safe_of_error (hs : m.Settled) {op : Op w} {e : Failure} (he : e ≠ .assertion)
    (h : m.perform p op = .error e) : e = .undefined ∧ ¬ m.Safe op := by
  cases op with
  | replace q oldFn =>
    obtain ⟨o, ho⟩ := hs.exists_perform_replace p q oldFn
    exact absurd (ho.symm.trans h) (asserting_ne_error o he)
  | unReplace client reqid =>
    obtain ⟨rfl, oldFn, reqs, i, hlocated, hne⟩ := unReplaceAFunction_eq_error he h
    exact ⟨rfl, fun hsafe => hne (hsafe oldFn reqs i hlocated).1⟩

/-- The chain from a function comes back to one without a jump only at its end. -/
theorem notMem_iff_of_notMem {newFn start : BitVec w}
    (hold : m.installed oldFn = none) (hchain : Links m.installed (some start) (chain ++ [newFn])) :
    (∀ l, Links m.installed (some newFn) l → oldFn ∉ l) ↔
      ∀ l, Links m.installed (some start) l → oldFn ∉ l := by
  obtain ⟨mid, hlast, -⟩ := hchain.of_append
  have hself : Links m.installed (some newFn) [newFn] := ⟨rfl, hlast.2⟩
  constructor
  · intro h l hl hmem
    obtain rfl := hl.unique hchain
    obtain ⟨l', hl'⟩ := hchain.eq_concat_of_next_none hmem hold
    obtain rfl : newFn = oldFn := by simpa using (append_inj' hl' rfl).2
    exact h [newFn] hself mem_cons_self
  · intro h l hl hmem
    obtain rfl := hl.unique hself
    obtain rfl : oldFn = newFn := by simpa using hmem
    exact h _ hchain (by simp)

/-- **One message**: from a settled manager it leads to a settled one exactly if it is safe. -/
theorem Settled.perform_iff (hm : m.Populated) (hs : m.Settled) {op : Op w}
    (h : m.perform p op = .ok m') : m'.Populated ∧ (m'.Settled ↔ m.Safe op) := by
  rw [hm.settled_iff] at hs
  cases op with
  | replace q oldFn =>
    obtain ⟨hm', newFn, hinst, hcase⟩ := replaceAFunction_eq_ok hm _ h
    refine ⟨hm', ?_⟩
    rw [hm'.settled_iff, hinst, hs.update_iff]
    rcases hcase with ⟨-, rfl⟩ | ⟨hold, chain, hchain⟩
    · rfl
    · exact notMem_iff_of_notMem (installed_of_notMem hold) hchain
  | unReplace client reqid =>
    obtain ⟨hm', oldFn, reqs, i, hlocated, hlast, hinst⟩ := unReplaceAFunction_eq_ok hm h
    refine ⟨hm', ?_⟩
    have hsafe : m.Safe (.unReplace client reqid) ↔
        ∀ newFn, getPresentlyInstalledNewFn reqs.dropLast = some newFn →
          ∀ chain, Links m.installed (some newFn) chain → oldFn ∉ chain := by
      constructor
      · exact fun h => (h oldFn reqs i hlocated).2
      · intro h oldFn' reqs' i' hlocated'
        cases hlocated.symm.trans hlocated'
        exact ⟨hlast, h⟩
    rw [hm'.settled_iff, hinst, hsafe]
    rcases hnew : getPresentlyInstalledNewFn reqs.dropLast with _ | newFn
    · exact iff_of_true hs.update_none fun newFn' hnew' => nomatch hnew'
    · rw [hs.update_iff]
      constructor
      · rintro h _ ⟨⟩
        exact h
      · exact fun h => h newFn rfl

theorem AlwaysSettled.settled {ops : List (Platform w × Op w)} (h : m.AlwaysSettled ops) :
    m.Settled := by
  cases ops with
  | nil => exact h
  | cons op ops => exact h.1

theorem Settled.alwaysSettled_iff (ops : List (Platform w × Op w)) :
    ∀ {m : InstrumentationMgr w}, m.Populated → m.Settled →
      (m.AlwaysSettled ops ↔ m.AlwaysSafe ops) := by
  induction ops with
  | nil => intro m _ hs; exact iff_of_true hs trivial
  | cons op ops ih =>
    obtain ⟨p, op⟩ := op
    intro m hm hs
    simp only [AlwaysSettled, AlwaysSafe, hs, true_and]
    cases hstep : m.perform p op with
    | error e =>
      by_cases he : e = .assertion
      · simp [he]
      · obtain ⟨rfl, hother⟩ := hs.not_safe_of_error he hstep
        simp [hother]
    | ok m₁ =>
      obtain ⟨hm₁, hiff⟩ := hs.perform_iff hm hstep
      simp only [ne_eq, reduceCtorEq, not_false_eq_true, true_and, forall_const, Except.ok.injEq,
        forall_eq']
      constructor
      · intro h
        exact ⟨hiff.mp h.settled, (ih hm₁ h.settled).mp h⟩
      · rintro ⟨hsafe, h⟩
        exact (ih hm₁ (hiff.mpr hsafe)).mpr h

theorem populated_empty : (empty : InstrumentationMgr w).Populated := fun _ _ h => nomatch h

theorem settled_empty : (empty : InstrumentationMgr w).Settled := fun fn =>
  ⟨[], fn, ⟨rfl, rfl⟩, notMem_empty fn⟩

/-- **Replacement never makes a cycle** if and only if no message is processed that would lead a
function back to itself or remove a request from below another one: all messages of a sequence
leave the manager settled exactly if all of them are safe. -/
theorem alwaysSettled_iff_alwaysSafe (ops : List (Platform w × Op w)) :
    (empty : InstrumentationMgr w).AlwaysSettled ops ↔ empty.AlwaysSafe ops :=
  settled_empty.alwaysSettled_iff ops populated_empty

/-! ## A cycle -/

theorem not_settled_of_self (fn : BitVec w) (h : m.installed fn = some fn) : ¬ m.Settled := by
  intro hs
  obtain ⟨chain, last, hl, -⟩ := hs fn
  exact hl.next_head_ne_self h

/-- On the i386 a launcher restores the instruction that was parsed, whatever is in memory, so
that one request can be installed over another. -/
def i386 : Platform 32 where
  isFn _ := true
  installs _ _ _ _ := true
  uninstalls _ _ := true

/-- The function at `0x100` is replaced twice, the second time by the one at `0x300`; that one is
then to be replaced by the first. -/
def thereAndBack : List (Op 32) :=
  [.replace ⟨0, 1, 0x200#32, false⟩ 0x100#32, .replace ⟨0, 2, 0x300#32, false⟩ 0x100#32,
    .replace ⟨0, 3, 0x100#32, false⟩ 0x300#32]

/-- The manager after the first two of these requests. -/
def replacedTwice : InstrumentationMgr 32 where
  replacedFnsMap := singleton 0x100#32 [⟨0, 1, 0x200#32, false⟩, ⟨0, 2, 0x300#32, false⟩]
  replacementFnsMap := singleton 0x200#32 0x100#32
  replaceFnIdMap := singleton (0, 1) (0x100#32, 0x200#32)

theorem settled_replacedTwice : replacedTwice.Settled := by
  intro fn
  rcases eq_or_ne fn 0x100#32 with rfl | hne
  · exact ⟨[0x100#32], 0x300#32, ⟨rfl, rfl, rfl⟩, by decide⟩
  · have hnot : fn ∉ replacedTwice.replacedFnsMap := by
      simpa [replacedTwice, AList.mem_keys] using hne
    exact ⟨[], fn, ⟨rfl, installed_of_notMem hnot⟩, hnot⟩

/-- A request for the function that is replaced by now is submitted once more, for the one that
replaces it. -/
theorem replaceAFunction_ends_replacedTwice :
    (thereAndBack.take 2).foldlM (fun m op => m.perform i386 op) empty = .ok replacedTwice ∧
      replaceAFunction i386 1 replacedTwice ⟨1, 1, 0x100#32, false⟩ 0x400#32 =
        .error .unfinished ∧
      ∃ m, m.installed 0x400#32 = some 0x300#32 ∧ ∀ fuel, 1 < fuel →
        replaceAFunction i386 fuel replacedTwice ⟨1, 1, 0x100#32, false⟩ 0x400#32 = .ok m := by
  obtain ⟨r, -, hr⟩ :=
    settled_replacedTwice.replaceAFunction_ends i386 ⟨1, 1, 0x100#32, false⟩ 0x400#32
  obtain ⟨m, hm, hinst⟩ : ∃ m, replaceAFunction i386 2 replacedTwice ⟨1, 1, 0x100#32, false⟩
      0x400#32 = .ok m ∧ m.installed 0x400#32 = some 0x300#32 := ⟨_, rfl, rfl⟩
  refine ⟨rfl, rfl, m, hinst, fun fuel hlt => ?_⟩
  rw [hr fuel hlt, ← hr 2 (by decide), hm]

/-- **A function jumps to its own entry**: the last request is rewritten to the function that is
to be replaced. -/
theorem thereAndBack_jumps_to_itself :
    (∀ q oldFn, .replace q oldFn ∈ thereAndBack → oldFn ≠ q.newFn) ∧
      ∃ m, thereAndBack.foldlM (fun m op => m.perform i386 op) empty = .ok m ∧
        m.installed 0x300#32 = some 0x300#32 ∧ ¬ m.Settled := by
  refine ⟨?_, _, rfl, rfl, not_settled_of_self 0x300#32 rfl⟩
  intro q oldFn hmem
  simp only [thereAndBack, mem_cons, Op.replace.injEq, not_mem_nil, or_false] at hmem
  rcases hmem with ⟨rfl, rfl⟩ | ⟨rfl, rfl⟩ | ⟨rfl, rfl⟩ <;> decide

end InstrumentationMgr

end Kerninst
