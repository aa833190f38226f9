import Kerninst.Driver.VtimersOwned

/-!
# Virtual timers follow their thread

Events of other threads leave a thread's vector alone (`Consistent.run`), so that a switch-in
restarts exactly what the thread's latest switch-out has saved.
-/

namespace Kerninst.Vtimers

open List Option Finmap Cswitch

variable {V : Type}

/-- Which way the event switches the thread: out (`true`), in, or not at all. -/
def Event.switchOf (thr : Key) : Event V → Option Bool
  | .switchOut thr' _ _ => if thr' = thr then some true else none
  | .switchIn thr' _ _ => if thr' = thr then some false else none
  | .timer _ _ _ => none

/-- The latest switch of a thread. -/
def lastSwitch (thr : Key) (events : List (Event V)) : Option Bool :=
  (events.filterMap (Event.switchOf thr)).getLast?

/-- Each thread is switched out and in by turns; the events before are `hist`. -/
def Alternates (hist : List (Event V)) : List (Event V) → Prop
  | [] => True
  | e :: events => (∀ thr b, e.switchOf thr = some b → lastSwitch thr hist ≠ some b) ∧
      Alternates (hist ++ [e]) events

theorem Alternates.of_append : ∀ {events events' hist : List (Event V)},
    Alternates hist (events ++ events') →
      Alternates hist events ∧ Alternates (hist ++ events) events' := by
  intro events
  induction events with
  | nil =>
    intro events' hist h
    rw [append_nil]
    exact ⟨trivial, h⟩
  | cons e events ih =>
    intro events' hist h
    obtain ⟨h₁, h₂⟩ := ih h.2
    rw [append_assoc] at h₂
    exact ⟨⟨h.1, h₁⟩, h₂⟩

theorem lastSwitch_concat (thr : Key) (events : List (Event V)) (e : Event V) :
    lastSwitch thr (events ++ [e]) = (e.switchOf thr).or (lastSwitch thr events) := by
  unfold lastSwitch
  cases h : e.switchOf thr with
  | none | some b => simp [h]

/-- To say that the threads alternate, it is enough to look at the thread that is switched. -/
theorem alternates_switch {hist events : List (Event V)} {e : Event V} (thr : Key) (b : Bool)
    (he : ∀ k, e.switchOf k = if thr = k then some b else none)
    (hlast : lastSwitch thr hist ≠ some b) (hrest : Alternates (hist ++ [e]) events) :
    Alternates hist (e :: events) := by
  refine ⟨fun k b' h => ?_, hrest⟩
  rw [he] at h
  split at h
  · rename_i heq
    rw [← heq, ← some.inj h]
    exact hlast
  · exact nomatch h

/-- What a thread has saved: nothing, or a list of timers in its vector. -/
def Holds (thr : Key) (s : Cswitch V) (m : TableMap Nat) : Option (List (V × VtimerStart)) → Prop
  | none => m.lookup thr = none
  | some l => ∃ v, m.lookup thr = some (some v) ∧ Filled (s.slHeap.timers v) l

/-- The timer is saved when its thread is switched out from this cpu: it runs, it has a counter,
and a vector is free. -/
def SavedAt (av : AllVtimers V) (s : Cswitch V) (cpu : Nat) (t : V) : Prop :=
  t ∈ av.vtimerAddresses ∧ Running s.vt cpu t ∧ av.Counts t ∧ s.slHeap.head ≠ none

/-- The list is that of the timers saved, with their recursion counts. -/
def Lists (av : AllVtimers V) (s : Cswitch V) (cpu : Nat) (clock : Clock V) :
    Option (List (V × VtimerStart)) → Prop
  | none => ∀ t, ¬ SavedAt av s cpu t
  | some l => ∀ t aux, (t, aux) ∈ l ↔
      SavedAt av s cpu t ∧ aux = ⟨clock t, (s.vt t cpu).startField.rcount⟩

/-- What a switch does for its own thread. -/
def Effect (av : AllVtimers V) (s : Cswitch V) (m : TableMap Nat) (free : List Nat)
    (s' : Cswitch V) (m' : TableMap Nat) (free' : List Nat) : Event V → Prop
  | .switchOut thr cpu clock => ∃ x, Holds thr s' m' x ∧ Lists av s cpu clock x
  | .switchIn thr cpu clock =>
    (m.lookup thr = none → s'.vt = s.vt ∧ s'.slHeap = s.slHeap) ∧
      ∀ v, m.lookup thr = some (some v) → free' = v :: free ∧
        ∀ l, Filled (s.slHeap.timers v) l → Restarts av cpu clock l s.vt s'.vt
  | .timer _ _ _ => True

/-- The invariant after some events: only threads that are switched out have a vector. -/
structure Consistent (hist : List (Event V)) (s : Cswitch V) (m : TableMap Nat) (free : List Nat) :
    Prop where
  inv : Inv s m free
  out : ∀ thr ∈ m, lastSwitch thr hist = some true

section Runs

variable {hist : List (Event V)} {s s' : Cswitch V} {m m' : TableMap Nat}
  {free free' : List Nat} {thr : Key}

theorem Inv.head_eq_none_iff (hinv : Inv s m free) : s.slHeap.head = none ↔ free = [] := by
  rw [hinv.links.start_eq_head?, head?_eq_none_iff]

theorem Inv.lists_some {av : AllVtimers V} {cpu v : Nat} {clock : Clock V}
    {l : List (V × VtimerStart)} (hinv : Inv s m (v :: free))
    (hmem : ∀ t aux, (t, aux) ∈ l ↔
      t ∈ av.vtimerAddresses ∧ savedOf av s.vt cpu clock t = some aux) :
    Lists av s cpu clock (some l) := by
  have hhead : s.slHeap.head ≠ none := fun h => nomatch hinv.head_eq_none_iff.mp h
  intro t aux
  rw [hmem, savedOf_eq_some]
  exact ⟨fun ⟨ht, hrun, hcounts, haux⟩ => ⟨⟨ht, hrun, hcounts, hhead⟩, haux⟩,
    fun ⟨⟨ht, hrun, hcounts, _⟩, haux⟩ => ⟨ht, hrun, hcounts, haux⟩⟩

/-- Another thread's vector is left alone, if what is in the table under its id is. -/
theorem Holds.congr {x : Option (List (V × VtimerStart))} (hx : Holds thr s m x)
    (hlookup : m'.lookup thr = m.lookup thr)
    (htimers : ∀ v, m.lookup thr = some (some v) → s'.slHeap.timers v = s.slHeap.timers v) :
    Holds thr s' m' x := by
  cases x with
  | none => exact hlookup.trans hx
  | some l =>
    obtain ⟨v, hv, hl⟩ := hx
    exact ⟨v, hlookup.trans hv, by rwa [htimers v hv]⟩

theorem consistent_start (s : Cswitch V) : Consistent [] s.start ∅ (List.range' 0 maxNumThreads) :=
  ⟨inv_start s, fun _ h => absurd h (notMem_empty)⟩

variable [DecidableEq V]

/-- **One event** keeps the invariant, and what other threads have saved. -/
theorem Consistent.event (av : AllVtimers V) (hc : Consistent hist s m free) {e : Event V}
    (halternates : ∀ thr b, e.switchOf thr = some b → lastSwitch thr hist ≠ some b)
    (hok : StepOk s e) :
    ∃ s' m' free', handle av s e = some s' ∧ Consistent (hist ++ [e]) s' m' free' ∧
      (∀ thr x, e.switchOf thr = none → Holds thr s m x → Holds thr s' m' x) ∧
      Effect av s m free s' m' free' e := by
  cases e with
  | timer t cpu vtimer =>
    refine ⟨_, m, free, rfl, ⟨?_, fun thr hthr => ?_⟩,
      fun thr x _ hx => hx.congr rfl fun _ _ => rfl, trivial⟩
    · exact ⟨hc.inv.ok, hc.inv.represents, hc.inv.links, hc.inv.lt, hc.inv.owned, hc.inv.inj,
        hc.inv.covered, hc.inv.filled⟩
    · rw [lastSwitch_concat]
      exact hc.out thr hthr
  | switchOut thr cpu clock =>
    have hself : (Event.switchOut thr cpu clock).switchOf thr = some true := if_pos rfl
    have hthr : thr ∉ m := fun hmem => halternates thr true hself (hc.out thr hmem)
    have hlast : ∀ {k}, k ≠ thr →
        lastSwitch k (hist ++ [.switchOut thr cpu clock]) = lastSwitch k hist := by
      intro k hk
      rw [lastSwitch_concat, Event.switchOf, if_neg hk.symm, none_or]
    obtain ⟨s', hout, -, ⟨hinv', hheap, hnothing⟩ | ⟨v, rest, l, rfl, hinv', hothers, hl, hmem⟩⟩ :=
      hc.inv.onSwitchOut av hthr hok
    · refine ⟨s', m, free, hout, ⟨hinv', fun k hk => ?_⟩,
        fun k x _ hx => hx.congr rfl fun _ _ => by rw [hheap], none, lookup_eq_none.mpr hthr, ?_⟩
      · rw [hlast fun heq => hthr (heq ▸ hk)]
        exact hc.out k hk
      · rintro t ⟨ht, hrun, hcounts, hhead⟩
        rcases hnothing with h | h
        · exact nomatch (h t ht).symm.trans (savedOf_eq_some.mpr ⟨hrun, hcounts, rfl⟩)
        · exact hhead (hc.inv.head_eq_none_iff.mpr h)
    · refine ⟨s', _, rest, hout, ⟨hinv', fun k hk => ?_⟩, fun k x hother hx => ?_,
        some l, ⟨v, lookup_insert _, hl⟩, hc.inv.lists_some hmem⟩
      · by_cases hkthr : k = thr
        · rw [hkthr, lastSwitch_concat, hself]
          rfl
        · rw [hlast hkthr]
          exact hc.out k ((mem_insert.mp hk).resolve_left hkthr)
      · have hne : k ≠ thr := by
          rintro rfl
          rw [hself] at hother
          exact nomatch hother
        refine hx.congr (lookup_insert_of_ne _ hne) fun v' hv' => hothers v' ?_
        -- a vector in use is not free
        rintro rfl
        obtain ⟨_, heq, -, hnotMem⟩ := hc.inv.owned k _ hv'
        exact hnotMem (some.inj heq ▸ mem_cons_self)
  | switchIn thr cpu clock =>
    have hself : (Event.switchIn thr cpu clock).switchOf thr = some false := if_pos rfl
    have hlast : ∀ {k}, k ≠ thr →
        lastSwitch k (hist ++ [.switchIn thr cpu clock]) = lastSwitch k hist := by
      intro k hk
      rw [lastSwitch_concat, Event.switchOf, if_neg hk.symm, none_or]
    obtain ⟨s', hin, htimers, ⟨hnone, hsame, hinv'⟩ |
        ⟨v, l, hlookup, hl, hrestarts, hinv'⟩⟩ := hc.inv.onSwitchIn av hok
    · refine ⟨s', m, free, hin, ⟨hinv', fun k hk => ?_⟩,
        fun k x _ hx => hx.congr rfl fun _ _ => by rw [htimers],
        fun _ => hsame, fun v hv => nomatch hnone.symm.trans hv⟩
      have hne : k ≠ thr := fun heq => lookup_eq_none.mp hnone (heq ▸ hk)
      rw [hlast hne]
      exact hc.out k hk
    · refine ⟨s', _, _, hin, ⟨hinv', fun k hk => ?_⟩, fun k x hother hx => ?_,
        (fun hnone => nomatch hnone.symm.trans hlookup), fun v' hv' => ?_⟩
      · obtain ⟨hne, hk⟩ := mem_erase.mp hk
        rw [hlast hne]
        exact hc.out k hk
      · have hne : k ≠ thr := by
          rintro rfl
          rw [hself] at hother
          exact nomatch hother
        exact hx.congr (lookup_erase_ne hne) fun _ _ => by rw [htimers]
      · obtain rfl := some.inj (mem_unique hlookup hv')
        exact ⟨rfl, fun l' hl' => hl.unique hl' ▸ hrestarts⟩

/-- **A run** keeps the invariant, and what the threads have saved that are not switched. -/
theorem Consistent.run (av : AllVtimers V) :
    ∀ {events hist : List (Event V)} {s : Cswitch V} {m : TableMap Nat}
    {free : List Nat}, Consistent hist s m free → Alternates hist events →
    AllSteps (handle av) StepOk s events →
    ∃ s' m' free', s.run av events = some s' ∧ Consistent (hist ++ events) s' m' free' ∧
      ∀ thr x, (∀ e ∈ events, e.switchOf thr = none) → Holds thr s m x → Holds thr s' m' x := by
  intro events
  induction events with
  | nil =>
    intro hist s m free hc _ _
    rw [append_nil]
    exact ⟨s, m, free, rfl, hc, fun _ _ _ hx => hx⟩
  | cons e events ih =>
    intro hist s m free hc halternates hok
    obtain ⟨s₁, m₁, free₁, hhandle, hc₁, hkeeps₁, -⟩ := hc.event av halternates.1 hok.1
    obtain ⟨s', m', free', hrun, hc', hkeeps⟩ := ih hc₁ halternates.2 (hok.2 s₁ hhandle)
    rw [append_assoc] at hc'
    refine ⟨s', m', free', ?_, hc', fun thr x hother hx => ?_⟩
    · rw [Cswitch.run, foldlM_cons, hhandle]
      exact hrun
    · obtain ⟨he, hother⟩ := forall_mem_cons.mp hother
      exact hkeeps thr x hother (hkeeps₁ thr x he hx)

end Runs

/-! ## What the driver promises -/

/-- **Each vector has one owner**, the list of free vectors or one thread in the hash table. -/
structure OneOwner (s : Cswitch V) : Prop where
  exists_free : ∃ free, Links s.slHeap.next s.slHeap.head free ∧
    (∀ v ∈ free, v < maxNumThreads) ∧
    (∀ thr d, (thr, d) ∈ s.htVtimers.pairs → ∃ v, d = some v ∧ v < maxNumThreads ∧ v ∉ free) ∧
    ∀ v < maxNumThreads, v ∈ free ∨ ∃ thr, (thr, some v) ∈ s.htVtimers.pairs
  inj : ∀ thr thr' v, (thr, some v) ∈ s.htVtimers.pairs → (thr', some v) ∈ s.htVtimers.pairs →
    thr = thr'

/-- **The timers saved at the switch-out from `s₁` are restarted** with their recursion counts,
and no others. -/
structure RestartsSaved (av : AllVtimers V) (s₁ : Cswitch V) (cpu : Nat) (s₂ s₃ : Cswitch V)
    (cpu' : Nat) (clock' : Clock V) : Prop where
  saved : ∀ t, SavedAt av s₁ cpu t →
    (s₃.vt t cpu').startField = ⟨clock' t, (s₁.vt t cpu).startField.rcount⟩
  others : ∀ t c, ¬ (c = cpu' ∧ SavedAt av s₁ cpu t) → s₃.vt t c = s₂.vt t c

/-- The thread's vector becomes the first free one. -/
def GivesBack (thr : Key) (s₂ s₃ : Cswitch V) : Prop :=
  ∀ v free, (thr, some v) ∈ s₂.htVtimers.pairs → Links s₂.slHeap.next s₂.slHeap.head free →
    Links s₃.slHeap.next s₃.slHeap.head (v :: free)

theorem Inv.oneOwner {s : Cswitch V} {m : TableMap Nat} {free : List Nat} (hinv : Inv s m free) :
    OneOwner s := by
  refine ⟨⟨free, hinv.links, hinv.lt, ?_, ?_⟩, ?_⟩
  · exact fun thr d h => hinv.owned thr d ((hinv.represents thr d).mpr h)
  · intro v hv
    refine (hinv.covered v hv).imp_right fun ⟨thr, h⟩ => ?_
    exact ⟨thr, (hinv.represents thr (some v)).mp h⟩
  · intro thr thr' v h h'
    exact hinv.inj thr thr' v ((hinv.represents _ _).mpr h) ((hinv.represents _ _).mpr h')

variable {av : AllVtimers V}

/-- The restarted timers of a list are those that were saved. -/
theorem Lists.restartsSaved {s₁ s₂ s₃ : Cswitch V} {cpu cpu' : Nat} {clock clock' : Clock V}
    {l : List (V × VtimerStart)} (hl : Lists av s₁ cpu clock (some l))
    (hr : Restarts av cpu' clock' l s₂.vt s₃.vt) :
    RestartsSaved av s₁ cpu s₂ s₃ cpu' clock' := by
  refine ⟨fun t ht => ?_, fun t c hnot => hr.others t c fun hc hmem => ?_⟩
  · have hmem := (hl t _).mpr ⟨ht, rfl⟩
    have hcounter : av.counter clock' t = some (clock' t) := if_pos ht.2.2.1
    rw [hr.restarted _ hmem, hcounter]
    rfl
  · obtain ⟨⟨t', aux⟩, hx, rfl⟩ := mem_map.mp hmem
    exact hnot ⟨hc, ((hl t' aux).mp hx).1⟩

variable [DecidableEq V]

/-- **Virtual timers follow their thread**, in a run from `s₀`. -/
structure Follows (av : AllVtimers V) (s₀ : Cswitch V) (events : List (Event V)) : Prop where
  /-- the driver gets through, and each vector always has one owner -/
  runs : ∀ pre, pre <+: events → ∃ s, s₀.run av pre = some s ∧ OneOwner s
  /-- a switch-in restarts what the latest switch-out of the thread has saved, and gives the
  vector back -/
  restarts : ∀ pre mid thr cpu clock cpu' clock',
    pre ++ .switchOut thr cpu clock :: (mid ++ [.switchIn thr cpu' clock']) <+: events →
    (∀ e ∈ mid, e.switchOf thr = none) →
    ∃ s₁ s₂ s₃, s₀.run av pre = some s₁ ∧
      s₀.run av (pre ++ .switchOut thr cpu clock :: mid) = some s₂ ∧
      s₀.run av (pre ++ .switchOut thr cpu clock :: (mid ++ [.switchIn thr cpu' clock'])) =
        some s₃ ∧
      RestartsSaved av s₁ cpu s₂ s₃ cpu' clock' ∧ GivesBack thr s₂ s₃
  /-- a thread that was never switched out has nothing to restart -/
  first : ∀ pre thr cpu clock, pre ++ [.switchIn thr cpu clock] <+: events →
    (∀ e ∈ pre, e.switchOf thr = none) →
    ∃ s₁ s₂, s₀.run av pre = some s₁ ∧ s₀.run av (pre ++ [.switchIn thr cpu clock]) = some s₂ ∧
      s₂.vt = s₁.vt ∧ s₂.slHeap = s₁.slHeap

theorem Cswitch.run_append {s₀ s : Cswitch V} {pre : List (Event V)} (hpre : s₀.run av pre = some s)
    (post : List (Event V)) : s₀.run av (pre ++ post) = s.run av post := by
  rw [run, foldlM_append]
  change (s₀.run av pre).bind _ = _
  rw [hpre]
  rfl

theorem Cswitch.run_cons {s s' : Cswitch V} {e : Event V} (he : handle av s e = some s')
    (post : List (Event V)) : s.run av (e :: post) = s'.run av post := by
  rw [run, foldlM_cons, he]
  rfl

/-- In every schedule in which the threads alternate and each event meets the condition. -/
theorem follows_of_stepOk (av : AllVtimers V) (mem : Cswitch V) (events : List (Event V))
    (halternates : Alternates [] events)
    (hok : AllSteps (handle av) StepOk mem.start events) : Follows av mem.start events := by
  have hstart := consistent_start mem
  refine ⟨?_, ?_, ?_⟩
  · rintro pre ⟨post, rfl⟩
    obtain ⟨s, m, free, hrun, hc, -⟩ := hstart.run av halternates.of_append.1 hok.of_append
    exact ⟨s, hrun, hc.inv.oneOwner⟩
  · rintro pre mid thr cpu clock cpu' clock' ⟨post, rfl⟩ hmid
    rw [append_assoc, cons_append, append_assoc] at halternates hok
    -- up to the switch-out
    obtain ⟨hpre, hout, hrest⟩ := halternates.of_append
    obtain ⟨hmidAlt, hin, -⟩ := hrest.of_append
    obtain ⟨s₁, m₁, free₁, hrun₁, hc₁, -⟩ := hstart.run av hpre hok.of_append
    have hok₁ := hok.of_foldlM hrun₁
    -- the switch-out, what is in between, and the switch-in
    obtain ⟨s₁', m₁', free₁', hhandle, hc₁', -, x, hx, hlists⟩ := hc₁.event av hout hok₁.1
    have hok₁' := hok₁.2 s₁' hhandle
    obtain ⟨s₂, m₂, free₂, hrun₂, hc₂, hkeeps⟩ := hc₁'.run av hmidAlt hok₁'.of_append
    have hx₂ := hkeeps thr x hmid hx
    obtain ⟨s₃, m₃, free₃, hhandle₃, hc₃, -, hnone, hsome⟩ :=
      hc₂.event av hin (hok₁'.of_foldlM hrun₂).1
    refine ⟨s₁, s₂, s₃, hrun₁, ?_, ?_, ?_, ?_⟩
    · rw [run_append hrun₁, run_cons hhandle, hrun₂]
    · rw [run_append hrun₁, run_cons hhandle, run_append hrun₂, run_cons hhandle₃]
      rfl
    · cases x with
      | none =>
        have hsame := (hnone hx₂).1
        refine ⟨fun t ht => absurd ht (hlists t), fun t c _ => by rw [hsame]⟩
      | some l =>
        obtain ⟨v, hv, hl⟩ := hx₂
        exact hlists.restartsSaved ((hsome v hv).2 l hl)
    · intro v free hv hlinks
      have hfree := (hsome v ((hc₂.inv.represents thr (some v)).mpr hv)).1
      rw [hlinks.unique hc₂.inv.links, ← hfree]
      exact hc₃.inv.links
  · rintro pre thr cpu clock ⟨post, rfl⟩ hpre
    rw [append_assoc] at halternates hok
    obtain ⟨hpreAlt, hin, -⟩ := halternates.of_append
    obtain ⟨s₁, m₁, free₁, hrun₁, hc₁, hkeeps⟩ := hstart.run av hpreAlt hok.of_append
    have hx := hkeeps thr none hpre (lookup_empty thr)
    obtain ⟨s₂, m₂, free₂, hhandle, -, -, hnone, -⟩ :=
      hc₁.event av hin (hok.of_foldlM hrun₁).1
    refine ⟨s₁, s₂, hrun₁, ?_, hnone hx⟩
    rw [run_append hrun₁, run_cons hhandle]
    rfl

/-! ## A timer -/

/-- One timer, which counts ticks. -/
def oneTimer : AllVtimers Nat := ⟨[0], by decide, fun _ => 1, false⟩

/-- A memory of zeroes. -/
def blankCswitch : Cswitch Nat where
  vt _ _ := ⟨0, ⟨0, 0⟩⟩
  htVtimers := blankTable Nat
  slHeap := ⟨fun _ => none, fun _ _ => ⟨none, ⟨0, 0⟩⟩, none⟩
  numberUnsavedTimers := 0

/-- The timer is started twice, and the thread moves to another cpu. -/
def movingEvents : List (Event Nat) :=
  [.timer 0 0 ⟨0, ⟨5, 2⟩⟩, .switchOut 7 0 fun _ => 9, .switchIn 7 1 fun _ => 20]

theorem follows_of_stepOk_moving :
    ∃ s, blankCswitch.start.run oneTimer movingEvents = some s ∧
      (s.vt 0 1).startField = ⟨20, 2⟩ := by
  have halternates : Alternates [] movingEvents := by
    refine ⟨fun thr b h => (nomatch h), ?_⟩
    refine alternates_switch 7 true (fun _ => rfl) (by decide) ?_
    exact alternates_switch 7 false (fun _ => rfl) (by decide) trivial
  have hok : AllSteps (handle oneTimer) StepOk blankCswitch.start movingEvents := by
    refine ⟨trivial, fun s₁ h₁ => ?_⟩
    obtain rfl := some.inj h₁
    refine ⟨fun h => absurd h (by decide), fun s₂ h₂ => ?_⟩
    obtain rfl := some.inj h₂
    refine ⟨?_, fun _ _ => trivial⟩
    unfold StepOk
    decide
  obtain ⟨s₁, s₂, s₃, hrun₁, -, hrun₃, hrestarts, -⟩ :=
    (follows_of_stepOk oneTimer blankCswitch movingEvents halternates hok).restarts
      [.timer 0 0 ⟨0, ⟨5, 2⟩⟩] [] 7 0 _ 1 _ prefix_rfl (fun _ h => nomatch h)
  obtain rfl := some.inj hrun₁
  refine ⟨s₃, hrun₃, hrestarts.saved 0 ⟨?_, ?_, ?_, ?_⟩⟩
  · decide
  · unfold Running
    decide
  · decide
  · decide

/-- The timer is off when the thread is switched out for the second time. -/
def staleEvents : List (Event Nat) :=
  [.timer 0 0 ⟨0, ⟨5, 2⟩⟩, .switchOut 7 0 fun _ => 9, .switchIn 7 0 fun _ => 20,
    .timer 0 0 ⟨0, ⟨0, 0⟩⟩, .switchOut 7 0 fun _ => 30, .switchIn 7 0 fun _ => 40]

/-- Two more threads are switched out while the timer runs. -/
def sharingEvents : List (Event Nat) :=
  staleEvents ++ [.timer 0 0 ⟨0, ⟨5, 2⟩⟩, .switchOut 8 0 fun _ => 50,
    .timer 0 0 ⟨0, ⟨5, 2⟩⟩, .switchOut 9 0 fun _ => 60]

/-- The second switch-in finds the vector that the first one has given back: it starts a timer
that was off, and gives the vector back again. The next two threads then get the same vector. -/
theorem vector_is_given_back_twice :
    Alternates [] sharingEvents ∧
      (∃ s, blankCswitch.start.run oneTimer (staleEvents.take 4) = some s ∧
        (s.vt 0 0).startField.rcount = 0) ∧
      (∃ s, blankCswitch.start.run oneTimer staleEvents = some s ∧
        (s.vt 0 0).startField.rcount = 2 ∧ s.slHeap.head = some 0 ∧ s.slHeap.next 0 = some 0) ∧
      ∃ s, blankCswitch.start.run oneTimer sharingEvents = some s ∧
        (8, some 0) ∈ s.htVtimers.pairs ∧ (9, some 0) ∈ s.htVtimers.pairs := by
  refine ⟨?_, ⟨_, rfl, by decide⟩, ⟨_, rfl, by decide, by decide, by decide⟩,
    _, rfl, by decide, by decide⟩
  refine ⟨fun thr b h => (nomatch h), ?_⟩
  refine alternates_switch 7 true (fun _ => rfl) (by decide) ?_
  refine alternates_switch 7 false (fun _ => rfl) (by decide) ⟨fun thr b h => (nomatch h), ?_⟩
  refine alternates_switch 7 true (fun _ => rfl) (by decide) ?_
  refine alternates_switch 7 false (fun _ => rfl) (by decide) ⟨fun thr b h => (nomatch h), ?_⟩
  refine alternates_switch 8 true (fun _ => rfl) (by decide) ⟨fun thr b h => (nomatch h), ?_⟩
  exact alternates_switch 9 true (fun _ => rfl) (by decide) trivial

end Kerninst.Vtimers
