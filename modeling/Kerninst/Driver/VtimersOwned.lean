import Kerninst.Driver.TableRefines
import Kerninst.Driver.Vtimers

/-!
# Who owns a vector of saved timers

Each vector of saved timers has one owner: it is in the list of free vectors, or it is the datum
of one thread in the hash table (`Inv`). A switch-out of a thread takes the first free vector and
fills it (`Inv.onSwitchOut`); a switch-in restarts what the vector holds and gives it back
(`Inv.onSwitchIn`).

The hash table stands against this in two ways, and `StepOk` excludes them:

* `hash_table_remove` returns the datum of an element that was removed before. A thread that has
  saved timers once, and has none to save the next time, gets back the vector that it has already
  given back;
* an add that packs a full table may link one element twice (`PackSafe`).
-/

namespace Kerninst.Vtimers

open List Function Option Saving

variable {V : Type}

/-! ## Filling a vector -/

/-- The vector holds these timers, and no others. -/
structure Filled (vec : Nat → SavedTimer V) (l : List (V × VtimerStart)) : Prop where
  holds : ∀ i x, l[i]? = some x → vec i = ⟨some x.1, x.2⟩
  ends : (vec l.length).addr = none

variable {vec : Nat → SavedTimer V}

/-- A vector ends where it has no timer. -/
theorem Filled.length_le {l l' : List (V × VtimerStart)} (h : Filled vec l) (h' : Filled vec l') :
    l.length ≤ l'.length := by
  by_contra hlt
  have hget := getElem?_eq_getElem (Nat.lt_of_not_le hlt)
  have hend := h'.ends
  rw [h.holds _ _ hget] at hend
  exact nomatch hend

theorem Filled.unique {l l' : List (V × VtimerStart)} (h : Filled vec l) (h' : Filled vec l') :
    l = l' := by
  have hlength : l.length = l'.length := Nat.le_antisymm (h.length_le h') (h'.length_le h)
  refine ext_getElem hlength fun i hi hi' => ?_
  have hsame := (h.holds i _ (getElem?_eq_getElem hi)).symm.trans
    (h'.holds i _ (getElem?_eq_getElem hi'))
  obtain ⟨haddr, haux⟩ := (SavedTimer.mk.injEq ..).mp hsame
  exact Prod.ext (some.inj haddr) haux

/-- The vector after the loop of `on_switch_out` has come so far: there is none, or it is the
first that was free, and holds what was to be saved. -/
inductive Grabbed (h : Stacklist V) (pre : List V) (saved : V → Option VtimerStart)
    (st : Saving V) : Prop
  | nothing (hvec : st.vecOfTimers = none) (hheap : st.slHeap = h)
    (hwhy : (∀ t ∈ pre, saved t = none) ∨ h.head = none)
  | vector (v : Nat) (l : List (V × VtimerStart)) (hhead : h.head = some v)
    (hvec : st.vecOfTimers = some v) (hnext : st.slHeap.next = h.next)
    (hrest : st.slHeap.head = h.next v) (hothers : ∀ v' ≠ v, st.slHeap.timers v' = h.timers v')
    (hiter : st.iter = l.length)
    (hholds : ∀ i x, l[i]? = some x → st.slHeap.timers v i = ⟨some x.1, x.2⟩)
    (hnodup : (l.map Prod.fst).Nodup)
    (hmem : ∀ t aux, (t, aux) ∈ l ↔ t ∈ pre ∧ saved t = some aux)

variable {l : List (V × VtimerStart)}

section Grabbed

variable {pre : List V} {t : V} {h : Stacklist V} {saved : V → Option VtimerStart} {st : Saving V}

/-- Nothing is to be saved that was not saved before. -/
theorem Grabbed.idle (hg : Grabbed h pre saved st) (hsaved : t ∉ pre → saved t = none) :
    Grabbed h (pre ++ [t]) saved st := by
  have hin : ∀ {t' aux}, t' ∈ pre ++ [t] → saved t' = some aux → t' ∈ pre := by
    intro t' aux hmem haux
    rcases mem_append.mp hmem with hmem | hmem
    · exact hmem
    · obtain rfl := mem_singleton.mp hmem
      exact by_contra fun hnot => nomatch haux.symm.trans (hsaved hnot)
  cases hg with
  | nothing hvec hheap hwhy =>
    refine .nothing hvec hheap (hwhy.imp_left fun hnone t' hmem => ?_)
    cases haux : saved t' with
    | none => rfl
    | some aux => exact haux.symm.trans (hnone t' (hin hmem haux))
  | vector v l hhead hvec hnext hrest hothers hiter hholds hnodup hmem =>
    refine .vector v l hhead hvec hnext hrest hothers hiter hholds hnodup fun t' aux => ?_
    rw [hmem]
    exact ⟨fun ⟨ht, haux⟩ => ⟨mem_append_left _ ht, haux⟩, fun ⟨ht, haux⟩ => ⟨hin ht haux, haux⟩⟩

theorem Saving.grab_vt (st : Saving V) : st.grab.vt = st.vt := by
  unfold grab stacklistGet
  cases st.vecOfTimers with
  | some v => rfl
  | none => cases st.slHeap.head <;> rfl

/-- After a grab there is a vector, unless none is free. -/
theorem Grabbed.grab (hg : Grabbed h pre saved st) :
    Grabbed h pre saved st.grab ∧ (st.grab.vecOfTimers = none → h.head = none) := by
  cases hg with
  | nothing hvec hheap hwhy =>
    unfold Saving.grab stacklistGet
    rw [hvec, hheap]
    cases hhead : h.head with
    | none => exact ⟨.nothing rfl rfl (.inr hhead), fun _ => rfl⟩
    | some v =>
      refine ⟨.vector v [] hhead rfl rfl rfl (fun _ _ => rfl) rfl (fun i x h => nomatch h)
        nodup_nil fun t aux => ?_, fun h => nomatch h⟩
      refine iff_of_false (not_mem_nil) fun ⟨ht, haux⟩ => ?_
      have hnone := hwhy.resolve_right (by rw [hhead]; exact some_ne_none v)
      exact nomatch haux.symm.trans (hnone t ht)
  | vector v l hhead hvec hnext hrest hothers hiter hholds hnodup hmem =>
    have hsame : st.grab = st := by unfold Saving.grab; rw [hvec]
    rw [hsame]
    exact ⟨.vector v l hhead hvec hnext hrest hothers hiter hholds hnodup hmem,
      fun hnone => nomatch hvec.symm.trans hnone⟩

/-- The list that a vector holds, and one more. -/
theorem holds_snoc {x : V × VtimerStart}
    (hholds : ∀ i y, l[i]? = some y → vec i = ⟨some y.1, y.2⟩) :
    ∀ i y, (l ++ [x])[i]? = some y → update vec l.length ⟨some x.1, x.2⟩ i = ⟨some y.1, y.2⟩ := by
  intro i y hy
  by_cases hi : i = l.length
  · subst hi
    rw [getElem?_concat_length] at hy
    obtain rfl := some.inj hy
    exact update_self ..
  · rw [update_of_ne hi]
    refine hholds i y ?_
    have hlt : i < l.length := by
      have := (List.getElem?_eq_some_iff.mp hy).1
      rw [length_append, length_singleton] at this
      omega
    rwa [getElem?_append_left hlt] at hy

theorem setTimer_timers (h : Stacklist V) (v i : Nat) (saved : SavedTimer V) :
    (h.setTimer v i saved).timers v = update (h.timers v) i saved :=
  update_self ..

/-- One more timer is saved. -/
theorem Grabbed.add (hg : Grabbed h pre saved st) (hfree : st.vecOfTimers = none → h.head = none)
    (ht : t ∉ pre) : Grabbed h (pre ++ [t]) saved (st.add t (saved t)) := by
  cases haux : saved t with
  | none =>
    have hsame : st.add t none = st := by
      unfold Saving.add
      cases st.vecOfTimers <;> rfl
    rw [hsame]
    exact hg.idle fun _ => haux
  | some aux =>
    cases hg with
    | nothing hvec hheap hwhy =>
      have hsame : st.add t (some aux) = st := by unfold Saving.add; rw [hvec]
      rw [hsame]
      exact .nothing hvec hheap (.inr (hfree hvec))
    | vector v l hhead hvec hnext hrest hothers hiter hholds hnodup hmem =>
      have hadd : st.add t (some aux) = { st with
          slHeap := st.slHeap.setTimer v st.iter ⟨some t, aux⟩, iter := st.iter + 1 } := by
        unfold Saving.add
        rw [hvec]
      rw [hadd]
      refine .vector v (l ++ [(t, aux)]) hhead hvec hnext hrest ?_ ?_ ?_ ?_ ?_
      · intro v' hv'
        exact (update_of_ne hv' ..).trans (hothers v' hv')
      · rw [length_append, ← hiter]
        rfl
      · intro i x hx
        rw [setTimer_timers, hiter]
        exact holds_snoc hholds i x hx
      · rw [map_append]
        refine nodup_append.mpr ⟨hnodup, nodup_singleton _, ?_⟩
        rintro a ha b hb rfl
        obtain rfl := mem_singleton.mp hb
        obtain ⟨⟨t', aux'⟩, hx, rfl⟩ := mem_map.mp ha
        exact ht ((hmem t' aux').mp hx).1
      · intro t' aux'
        rw [mem_append, mem_singleton, hmem, mem_append, mem_singleton, Prod.mk.injEq]
        constructor
        · rintro (⟨hin, hsaved⟩ | ⟨rfl, rfl⟩)
          · exact ⟨.inl hin, hsaved⟩
          · exact ⟨.inr rfl, haux⟩
        · rintro ⟨hin | rfl, hsaved⟩
          · exact .inl ⟨hin, hsaved⟩
          · exact .inr ⟨rfl, mem_unique hsaved haux⟩

theorem Saving.add_vt (st : Saving V) (t : V) (aux : Option VtimerStart) :
    (st.add t aux).vt = st.vt := by
  unfold add
  cases st.vecOfTimers with
  | none => rfl
  | some v => cases aux <;> rfl

theorem Grabbed.setVt (hg : Grabbed h pre saved st) (vt : Memory V) :
    Grabbed h pre saved { st with vt := vt } := by
  cases hg with
  | nothing hvec hheap hwhy => exact .nothing hvec hheap hwhy
  | vector v l hhead hvec hnext hrest hothers hiter hholds hnodup hmem =>
    exact .vector v l hhead hvec hnext hrest hothers hiter hholds hnodup hmem

end Grabbed

/-! ## Ownership -/

/-- **Each vector has one owner**: `free` are the free vectors, and `m` holds those of the threads
that were switched out. -/
structure Inv (s : Cswitch V) (m : TableMap Nat) (free : List Nat) : Prop where
  ok : s.htVtimers.Ok
  represents : s.htVtimers.Represents m
  links : Links s.slHeap.next s.slHeap.head free
  lt : ∀ v ∈ free, v < maxNumThreads
  owned : ∀ k d, m.lookup k = some d → ∃ v, d = some v ∧ v < maxNumThreads ∧ v ∉ free
  inj : ∀ k k' v, m.lookup k = some (some v) → m.lookup k' = some (some v) → k = k'
  covered : ∀ v < maxNumThreads, v ∈ free ∨ ∃ k, m.lookup k = some (some v)
  filled : ∀ k v, m.lookup k = some (some v) → ∃ l, Filled (s.slHeap.timers v) l ∧
    l.length < maxNumVtimers ∧ (l.map Prod.fst).Nodup

/-- The calls that leave each vector with one owner. A thread is not switched in while its element
of the hash table is flagged, and a full table can be packed. -/
def StepOk (s : Cswitch V) : Event V → Prop
  | .switchOut _ _ _ =>
    s.htVtimers.numElems = htMaxNumElems →
      PackSafe s.htVtimers.allElems (s.htVtimers.numElems - 1)
  | .switchIn thr _ _ => ∀ i < s.htVtimers.numElems,
      (s.htVtimers.allElems i).theKey = thr → (s.htVtimers.allElems i).removed = false
  | .timer _ _ _ => True

section Owners

variable {s : Cswitch V} {m : TableMap Nat} {free : List Nat} {thr : Key}

/-- At the start the free vectors are linked in order. -/
theorem links_initialize (h : Stacklist V) : ∀ n i, i + n = maxNumThreads → 0 < n →
    Links (stacklistInitialize h).next (some i) (range' i n) := by
  intro n
  induction n with
  | zero => exact fun i _ hpos => absurd hpos (Nat.lt_irrefl 0)
  | succ n ih =>
    intro i hi _
    refine ⟨rfl, ?_⟩
    change Links _ (if i + 1 < maxNumThreads then some (i + 1) else none) _
    by_cases hn : 0 < n
    · rw [if_pos (by omega)]
      exact ih (i + 1) (by omega) hn
    · obtain rfl : n = 0 := by omega
      rw [if_neg (by omega)]
      rfl

theorem inv_start (s : Cswitch V) : Inv s.start ∅ (range' 0 maxNumThreads) where
  ok := .hashTableInitialize _
  represents := HashTable.represents_init _
  links := links_initialize _ maxNumThreads 0 rfl (by decide)
  lt v hv := by
    have := (mem_range'_1.mp hv).2
    rwa [Nat.zero_add] at this
  owned k d h := by rw [Finmap.lookup_empty] at h; exact nomatch h
  inj k k' v h := by rw [Finmap.lookup_empty] at h; exact nomatch h
  covered v hv := .inl (mem_range'_1.mpr ⟨Nat.zero_le v, by rwa [Nat.zero_add]⟩)
  filled k v h := by rw [Finmap.lookup_empty] at h; exact nomatch h

/-- There are fewer vectors than places in the table. -/
theorem Inv.card_lt (hinv : Inv s m free) : m.keys.card < htMaxNumElems := by
  have hle : m.keys.card ≤ (Finset.range maxNumThreads).card := by
    refine Finset.card_le_card_of_injOn (fun k => (m.lookup k).join.getD 0) ?_ ?_
    · intro k hk
      obtain ⟨d, hd⟩ := Finmap.mem_iff.mp (Finmap.mem_keys.mp hk)
      obtain ⟨v, rfl, hv, -⟩ := hinv.owned k d hd
      simpa [hd] using hv
    · intro k hk k' hk' heq
      obtain ⟨d, hd⟩ := Finmap.mem_iff.mp (Finmap.mem_keys.mp hk)
      obtain ⟨d', hd'⟩ := Finmap.mem_iff.mp (Finmap.mem_keys.mp hk')
      obtain ⟨v, rfl, -, -⟩ := hinv.owned k d hd
      obtain ⟨v', rfl, -, -⟩ := hinv.owned k' d' hd'
      obtain rfl : v = v' := by simpa [hd, hd'] using heq
      exact hinv.inj k k' v hd hd'
  rw [Finset.card_range] at hle
  exact Nat.lt_of_le_of_lt hle (by decide)

/-- A thread gets the first free vector. -/
theorem Inv.take {v : Nat} {ht : HashTable Nat} {heap : Stacklist V} {vt : Memory V}
    {unsaved : BitVec 32} (hinv : Inv s m (v :: free)) (hthr : thr ∉ m)
    (hok : ht.Ok) (hrep : ht.Represents (m.insert thr (some v)))
    (hnext : heap.next = s.slHeap.next) (hhead : heap.head = s.slHeap.next v)
    (hothers : ∀ v' ≠ v, heap.timers v' = s.slHeap.timers v') (hl : Filled (heap.timers v) l)
    (hlength : l.length < maxNumVtimers) (hnodup : (l.map Prod.fst).Nodup) :
    Inv ⟨vt, ht, heap, unsaved⟩ (m.insert thr (some v)) free := by
  have hv : v ∉ free := (nodup_cons.mp hinv.links.nodup).1
  have hlookup : ∀ {k d}, (m.insert thr (some v)).lookup k = some d →
      (k = thr ∧ d = some v) ∨ (m.lookup k = some d ∧ d ≠ some v) := by
    intro k d h
    by_cases hk : k = thr
    · subst hk
      rw [Finmap.lookup_insert] at h
      exact .inl ⟨rfl, (some.inj h).symm⟩
    · rw [Finmap.lookup_insert_of_ne _ hk] at h
      obtain ⟨v', rfl, -, hnotMem⟩ := hinv.owned k d h
      exact .inr ⟨h, fun heq => hnotMem (some.inj heq ▸ mem_cons_self)⟩
  refine ⟨hok, hrep, ?_, ?_, ?_, ?_, ?_, ?_⟩
  · rw [hnext, hhead]
    exact hinv.links.2
  · exact fun v' hv' => hinv.lt v' (mem_cons_of_mem _ hv')
  · intro k d h
    obtain ⟨rfl, rfl⟩ | ⟨h, -⟩ := hlookup h
    · exact ⟨v, rfl, hinv.lt v mem_cons_self, hv⟩
    · obtain ⟨v', rfl, hlt, hnotMem⟩ := hinv.owned k d h
      exact ⟨v', rfl, hlt, fun hmem => hnotMem (mem_cons_of_mem _ hmem)⟩
  · intro k k' v' h h'
    obtain ⟨rfl, heq⟩ | ⟨h, hne⟩ := hlookup h <;> obtain ⟨rfl, heq'⟩ | ⟨h', hne'⟩ := hlookup h'
    · rfl
    · exact absurd heq hne'
    · exact absurd heq' hne
    · exact hinv.inj k k' v' h h'
  · intro v' hv'
    by_cases hvv : v' = v
    · exact .inr ⟨thr, by rw [hvv, Finmap.lookup_insert]⟩
    · refine (hinv.covered v' hv').imp (fun hmem => (mem_cons.mp hmem).resolve_left hvv) ?_
      rintro ⟨k, hk⟩
      have hne : k ≠ thr := fun heq => hthr (Finmap.mem_iff.mpr ⟨_, heq ▸ hk⟩)
      exact ⟨k, by rw [Finmap.lookup_insert_of_ne _ hne, hk]⟩
  · intro k v' h
    obtain ⟨rfl, heq⟩ | ⟨h, hne⟩ := hlookup h
    · obtain rfl := some.inj heq
      exact ⟨l, hl, hlength, hnodup⟩
    · rw [hothers v' fun heq => hne (congrArg some heq)]
      exact hinv.filled k v' h

/-- A thread gives its vector back. -/
theorem Inv.giveBack {v : Nat} {ht : HashTable Nat} {vt : Memory V} {unsaved : BitVec 32}
    (hinv : Inv s m free) (hthr : m.lookup thr = some (some v)) (hok : ht.Ok)
    (hrep : ht.Represents (m.erase thr)) :
    Inv ⟨vt, ht, stacklistFree s.slHeap v, unsaved⟩ (m.erase thr) (v :: free) := by
  have hlookup : ∀ {k d}, (m.erase thr).lookup k = some d → k ≠ thr ∧ m.lookup k = some d := by
    intro k d h
    by_cases hk : k = thr
    · subst hk
      rw [Finmap.lookup_erase] at h
      exact nomatch h
    · exact ⟨hk, by rwa [Finmap.lookup_erase_ne hk] at h⟩
  obtain ⟨v₀, hv₀, hlt, hnotMem⟩ := hinv.owned thr _ hthr
  obtain rfl := some.inj hv₀
  refine ⟨hok, hrep, ?_, ?_, ?_, ?_, ?_, ?_⟩
  · refine ⟨rfl, ?_⟩
    change Links (update s.slHeap.next v s.slHeap.head)
      (update s.slHeap.next v s.slHeap.head v) free
    rw [update_self]
    refine hinv.links.congr fun b hb => update_of_ne ?_ ..
    rintro rfl
    exact hnotMem hb
  · exact forall_mem_cons.mpr ⟨hlt, hinv.lt⟩
  · intro k d h
    obtain ⟨hne, h⟩ := hlookup h
    obtain ⟨v', rfl, hlt', hnotMem'⟩ := hinv.owned k d h
    refine ⟨v', rfl, hlt', fun hmem => ?_⟩
    rcases mem_cons.mp hmem with rfl | hmem
    · exact hne (hinv.inj k thr v' h hthr)
    · exact hnotMem' hmem
  · exact fun k k' v' h h' => hinv.inj k k' v' (hlookup h).2 (hlookup h').2
  · intro v' hv'
    rcases hinv.covered v' hv' with hmem | ⟨k, hk⟩
    · exact .inl (mem_cons_of_mem _ hmem)
    · by_cases hkthr : k = thr
      · rw [hkthr, hthr] at hk
        obtain rfl := some.inj (some.inj hk)
        exact .inl mem_cons_self
      · exact .inr ⟨k, by rw [Finmap.lookup_erase_ne hkthr, hk]⟩
  · exact fun k v' h => hinv.filled k v' (hlookup h).2

end Owners

/-! ## What is saved -/

/-- The timer runs. -/
def Running (vt : Memory V) (cpu : Nat) (t : V) : Prop := (vt t cpu).startField.rcount ≠ 0

/-- What a switch-out saves of a timer: a timer that does not run is not saved, and neither is
one without a counter. -/
def savedOf (av : AllVtimers V) (vt : Memory V) (cpu : Nat) (clock : Clock V) (t : V) :
    Option VtimerStart :=
  if (vt t cpu).startField.rcount ≠ 0 then
    (genericVstopRoutine (vt t cpu) (av.counter clock t)).2
  else none

theorem savedOf_eq_some {av : AllVtimers V} {vt : Memory V} {cpu : Nat} {clock : Clock V} {t : V}
    {aux : VtimerStart} : savedOf av vt cpu clock t = some aux ↔
      Running vt cpu t ∧ av.Counts t ∧ aux = ⟨clock t, (vt t cpu).startField.rcount⟩ := by
  unfold savedOf AllVtimers.counter
  by_cases hrun : (vt t cpu).startField.rcount ≠ 0
  · rw [if_pos hrun]
    by_cases hcounts : av.Counts t
    · rw [if_pos hcounts]
      exact ⟨fun h => ⟨hrun, hcounts, (some.inj h).symm⟩, fun h => congrArg some h.2.2.symm⟩
    · rw [if_neg hcounts]
      exact iff_of_false (fun h => nomatch h) fun h => hcounts h.2.1
  · rw [if_neg hrun]
    exact iff_of_false (fun h => nomatch h) fun h => hrun h.1

/-! ## The two loops -/

variable [DecidableEq V]

theorem setVtimer_self (vt : Memory V) (t : V) (cpu : Nat) (vtimer : Vtimer) :
    setVtimer vt t cpu vtimer t cpu = vtimer := by
  rw [setVtimer, update_self, update_self]

theorem setVtimer_of_ne (vt : Memory V) {t t' : V} {cpu c : Nat} (vtimer : Vtimer)
    (h : ¬ (t' = t ∧ c = cpu)) : setVtimer vt t cpu vtimer t' c = vt t' c := by
  unfold setVtimer
  by_cases ht : t' = t
  · subst ht
    rw [update_self, update_of_ne fun hc => h ⟨rfl, hc⟩]
  · rw [update_of_ne ht]

/-- What `on_switch_in` does to the timers. -/
structure Restarts (av : AllVtimers V) (cpu : Nat) (clock : Clock V)
    (l : List (V × VtimerStart)) (vt vt' : Memory V) : Prop where
  restarted : ∀ x ∈ l, vt' x.1 cpu =
    genericVrestartRoutine (vt x.1 cpu) x.2 (av.counterType x.1) (av.counter clock x.1)
  others : ∀ t c, (c = cpu → t ∉ l.map Prod.fst) → vt' t c = vt t c

/-- **The loop of a switch-in**, from where `done` is done. -/
theorem restartLoop_spec (av : AllVtimers V) (cpu : Nat) (clock : Clock V)
    : ∀ {l done : List (V × VtimerStart)} {rounds : Nat}
    (vt : Memory V), Filled vec (done ++ l) → l.length < rounds → (l.map Prod.fst).Nodup →
    ∃ vt', restartLoop av cpu clock vec rounds done.length vt = some vt' ∧
      Restarts av cpu clock l vt vt' := by
  intro l
  induction l with
  | nil =>
    intro done rounds vt hvec hrounds _
    obtain ⟨rounds, rfl⟩ := Nat.exists_eq_succ_of_ne_zero (Nat.ne_of_gt hrounds)
    have hend : (vec done.length).addr = none := by
      have := hvec.ends
      rwa [append_nil] at this
    exact ⟨vt, by simp [restartLoop, hend], ⟨(fun _ h => nomatch h), fun _ _ _ => rfl⟩⟩
  | cons x l ih =>
    intro done rounds vt hvec hrounds hnodup
    obtain ⟨rounds, rfl⟩ := Nat.exists_eq_succ_of_ne_zero (Nat.ne_of_gt (Nat.zero_lt_of_lt hrounds))
    obtain ⟨hx, hnodup⟩ := nodup_cons.mp hnodup
    have hhere : vec done.length = ⟨some x.1, x.2⟩ := hvec.holds _ _ (by simp)
    have hrest : Filled vec ((done ++ [x]) ++ l) := by rwa [append_assoc]
    obtain ⟨vt', hloop, hrestarts⟩ := ih _ hrest (Nat.lt_of_succ_lt_succ hrounds) hnodup
    rw [length_append, length_singleton] at hloop
    refine ⟨vt', by simp only [restartLoop, hhere]; exact hloop, ?_, ?_⟩
    · intro y hy
      rcases mem_cons.mp hy with rfl | hy
      · -- the rest of the loop does not touch it again
        rw [hrestarts.others _ _ fun _ => hx, setVtimer_self]
      · have hne : y.1 ≠ x.1 := fun heq => hx (heq ▸ mem_map_of_mem hy)
        rw [hrestarts.restarted y hy, setVtimer_of_ne _ _ fun h => hne h.1]
    · intro t c h
      have ht : c = cpu → t ≠ x.1 ∧ t ∉ l.map Prod.fst := fun hc => by
        simpa using h hc
      rw [hrestarts.others t c fun hc => (ht hc).2,
        setVtimer_of_ne _ _ fun heq => (ht heq.2).1 heq.1]

/-- What `on_switch_out` does to the timers that it has come to. -/
structure Stops (av : AllVtimers V) (cpu : Nat) (clock : Clock V) (pre : List V)
    (vt vt' : Memory V) : Prop where
  stopped : ∀ t ∈ pre, Running vt cpu t →
    vt' t cpu = (genericVstopRoutine (vt t cpu) (av.counter clock t)).1
  others : ∀ t c, ¬ (c = cpu ∧ t ∈ pre ∧ Running vt cpu t) → vt' t c = vt t c

section Saving

variable {av : AllVtimers V} {cpu : Nat} {clock : Clock V} {pre : List V} {vt vt' : Memory V}
  {t : V}

theorem rcount_stopped (vtimer : Vtimer) (counter : Option (BitVec 48)) :
    (genericVstopRoutine vtimer counter).1.startField.rcount = 0 := by
  cases counter <;> rfl

theorem Stops.running_iff (hs : Stops av cpu clock pre vt vt') :
    Running vt' cpu t ↔ Running vt cpu t ∧ t ∉ pre := by
  by_cases ht : t ∈ pre ∧ Running vt cpu t
  · have hoff : ¬ Running vt' cpu t := by
      rw [Running, hs.stopped t ht.1 ht.2, rcount_stopped]
      exact fun hne => hne rfl
    exact iff_of_false hoff fun hon => hon.2 ht.1
  · rw [Running, hs.others t cpu fun hc => ht hc.2]
    exact ⟨fun hrun => ⟨hrun, fun hmem => ht ⟨hmem, hrun⟩⟩, And.left⟩

theorem Stops.idle (hs : Stops av cpu clock pre vt vt') (hidle : ¬ Running vt' cpu t) :
    Stops av cpu clock (pre ++ [t]) vt vt' := by
  have hin : ∀ {t'}, t' ∈ pre ++ [t] → Running vt cpu t' → t' ∈ pre := by
    intro t' hmem hrun
    rcases mem_append.mp hmem with hmem | hmem
    · exact hmem
    · obtain rfl := mem_singleton.mp hmem
      exact by_contra fun hnot => hidle (hs.running_iff.mpr ⟨hrun, hnot⟩)
  refine ⟨fun t' hmem hrun => hs.stopped t' (hin hmem hrun) hrun, fun t' c hnot => ?_⟩
  exact hs.others t' c fun ⟨hc, hmem, hrun⟩ => hnot ⟨hc, mem_append_left _ hmem, hrun⟩

theorem Stops.stop (hs : Stops av cpu clock pre vt vt') (hrun : Running vt' cpu t) :
    Stops av cpu clock (pre ++ [t]) vt
      (setVtimer vt' t cpu (genericVstopRoutine (vt' t cpu) (av.counter clock t)).1) := by
  obtain ⟨hon, hnotMem⟩ := hs.running_iff.mp hrun
  have hsame : vt' t cpu = vt t cpu := hs.others t cpu fun hc => hnotMem hc.2.1
  refine ⟨fun t' hmem hrun' => ?_, fun t' c hnot => ?_⟩
  · by_cases ht : t' = t
    · subst ht
      rw [setVtimer_self, hsame]
    · rw [setVtimer_of_ne _ _ fun heq => ht heq.1]
      refine hs.stopped t' ((mem_append.mp hmem).resolve_right fun h => ?_) hrun'
      exact ht (mem_singleton.mp h)
  · have hne : ¬ (t' = t ∧ c = cpu) := fun ⟨ht, hc⟩ =>
      hnot ⟨hc, ht ▸ mem_append_right _ (mem_singleton_self _), ht ▸ hon⟩
    rw [setVtimer_of_ne _ _ hne]
    exact hs.others t' c fun ⟨hc, hmem, hon'⟩ => hnot ⟨hc, mem_append_left _ hmem, hon'⟩

/-- **The loop of a switch-out.** -/
theorem foldl_round_spec (av : AllVtimers V) (cpu : Nat) (clock : Clock V) (s : Cswitch V)
    (l : List V) :
    let st := l.foldl (round av cpu clock) ⟨s.vt, s.slHeap, none, 0, s.numberUnsavedTimers⟩
    Stops av cpu clock l s.vt st.vt ∧ Grabbed s.slHeap l (savedOf av s.vt cpu clock) st := by
  induction l using reverseRecOn with
  | nil =>
    exact ⟨⟨(fun _ h => nomatch h), fun _ _ _ => rfl⟩, .nothing rfl rfl (.inl fun _ h => nomatch h)⟩
  | append_singleton pre t ih =>
    rw [foldl_append]
    obtain ⟨hs, hg⟩ := ih
    set st := pre.foldl (round av cpu clock) ⟨s.vt, s.slHeap, none, 0, s.numberUnsavedTimers⟩
    change Stops av cpu clock (pre ++ [t]) s.vt (round av cpu clock st t).vt ∧
      Grabbed s.slHeap (pre ++ [t]) (savedOf av s.vt cpu clock) (round av cpu clock st t)
    by_cases hrun : Running st.vt cpu t
    · have hround : round av cpu clock st t = st.grab.stop av cpu clock t := if_pos hrun
      rw [hround]
      obtain ⟨hon, hnotMem⟩ := hs.running_iff.mp hrun
      have hsame : st.vt t cpu = s.vt t cpu := hs.others t cpu fun hc => hnotMem hc.2.1
      have hsaved : savedOf av s.vt cpu clock t =
          (genericVstopRoutine (st.grab.vt t cpu) (av.counter clock t)).2 := by
        rw [grab_vt, hsame]
        exact if_pos hon
      obtain ⟨hg', hfree⟩ := hg.grab
      refine ⟨?_, ?_⟩
      · rw [stop, add_vt, grab_vt]
        exact hs.stop hrun
      · rw [stop, ← hsaved]
        exact (hg'.setVt _).add hfree hnotMem
    · have hround : round av cpu clock st t = st := if_neg hrun
      rw [hround]
      refine ⟨hs.idle hrun, hg.idle fun hnotMem => ?_⟩
      exact if_neg fun hon => hrun (hs.running_iff.mpr ⟨hon, hnotMem⟩)

end Saving

/-! ## One switch -/

section Switches

variable {s : Cswitch V} {m : TableMap Nat} {free : List Nat} {thr : Key} {cpu : Nat}
  {clock : Clock V}

/-- **A switch-out** saves the timers in the first free vector, if there is one. -/
theorem Inv.onSwitchOut (av : AllVtimers V) (hinv : Inv s m free) (hthr : thr ∉ m)
    (hok : StepOk s (.switchOut thr cpu clock)) :
    ∃ s', onSwitchOut av s thr cpu clock = some s' ∧
      Stops av cpu clock av.vtimerAddresses s.vt s'.vt ∧
      ((Inv s' m free ∧ s'.slHeap = s.slHeap ∧
          ((∀ t ∈ av.vtimerAddresses, savedOf av s.vt cpu clock t = none) ∨ free = [])) ∨
        ∃ v rest l, free = v :: rest ∧ Inv s' (m.insert thr (some v)) rest ∧
          (∀ v' ≠ v, s'.slHeap.timers v' = s.slHeap.timers v') ∧ Filled (s'.slHeap.timers v) l ∧
          ∀ t aux, (t, aux) ∈ l ↔
            t ∈ av.vtimerAddresses ∧ savedOf av s.vt cpu clock t = some aux) := by
  obtain ⟨hstops, hgrabbed⟩ := foldl_round_spec av cpu clock s av.vtimerAddresses
  unfold Vtimers.onSwitchOut
  generalize av.vtimerAddresses.foldl (round av cpu clock)
    ⟨s.vt, s.slHeap, none, 0, s.numberUnsavedTimers⟩ = st at hstops hgrabbed ⊢
  unfold finish
  cases hgrabbed with
  | nothing hvec hheap hwhy =>
    simp only [hvec]
    refine ⟨_, rfl, hstops, .inl ⟨?_, hheap, hwhy.imp_right fun hnone => ?_⟩⟩
    · rw [hheap]
      exact { hinv with }
    · have hhead := hinv.links.start_eq_head?
      rw [hnone] at hhead
      exact head?_eq_none_iff.mp hhead.symm
  | vector v l hhead hvec hnext hrest hothers hiter hholds hnodup hmem =>
    simp only [hvec]
    have hfree := hinv.links.start_eq_head?
    rw [hhead] at hfree
    obtain ⟨rest, rfl⟩ := head?_eq_some_iff.mp hfree.symm
    have hadds : s.htVtimers.StepOk (.add (some v) thr) := hok
    obtain ⟨ht, hadd, hht, hrep⟩ := hashTableAdd_spec hinv.represents hinv.ok hadds
    have hroom : ¬ (thr ∈ m ∨ m.keys.card = htMaxNumElems) :=
      not_or.mpr ⟨hthr, Nat.ne_of_lt hinv.card_lt⟩
    rw [TableMap.apply, if_neg hroom] at hrep
    have hlength : l.length ≤ av.vtimerAddresses.length := by
      rw [← length_map (f := Prod.fst)]
      refine (hnodup.subperm fun t ht => ?_).length_le
      obtain ⟨⟨t', aux⟩, hx, rfl⟩ := mem_map.mp ht
      exact ((hmem t' aux).mp hx).1
    have hl : Filled ((st.slHeap.setTimer v st.iter
        { st.slHeap.timers v st.iter with addr := none }).timers v) l := by
      rw [setTimer_timers, hiter]
      refine ⟨fun i x hx => ?_, by rw [update_self]⟩
      rw [update_of_ne (Nat.ne_of_lt (List.getElem?_eq_some_iff.mp hx).1)]
      exact hholds i x hx
    rw [hadd]
    refine ⟨_, rfl, hstops, .inr ⟨v, rest, l, rfl, hinv.take hthr hht hrep hnext hrest ?_ hl
      (Nat.lt_of_le_of_lt hlength av.length_lt) hnodup, ?_, hl, hmem⟩⟩
    · exact fun v' hv' => (update_of_ne hv' ..).trans (hothers v' hv')
    · exact fun v' hv' => (update_of_ne hv' ..).trans (hothers v' hv')

/-- **A switch-in** restarts the timers in the thread's vector, if it has one. -/
theorem Inv.onSwitchIn (av : AllVtimers V) (hinv : Inv s m free)
    (hok : StepOk s (.switchIn thr cpu clock)) :
    ∃ s', onSwitchIn av s thr cpu clock = some s' ∧ s'.slHeap.timers = s.slHeap.timers ∧
      ((m.lookup thr = none ∧ (s'.vt = s.vt ∧ s'.slHeap = s.slHeap) ∧ Inv s' m free) ∨
        ∃ v l, m.lookup thr = some (some v) ∧ Filled (s.slHeap.timers v) l ∧
          Restarts av cpu clock l s.vt s'.vt ∧ Inv s' (m.erase thr) (v :: free)) := by
  rcases hinv.represents.find hinv.ok thr with ⟨hfind, hm⟩ | ⟨ndx, hndx, hfind, hkey, hlook⟩
  · -- there is no element for the thread
    refine ⟨s, ?_, rfl, .inl ⟨Finmap.lookup_eq_none.mpr hm, ⟨rfl, rfl⟩, hinv⟩⟩
    simp only [Vtimers.onSwitchIn, hashTableRemove, hfind, run_do]
  · rw [hok ndx hndx hkey] at hlook
    obtain ⟨v, hdata, -, -⟩ := hinv.owned thr _ hlook
    obtain ⟨l, hl, hlength, hnodup⟩ := hinv.filled thr v (hdata ▸ hlook)
    have hfrom : Filled (s.slHeap.timers v) ([] ++ l) := hl
    obtain ⟨vt, hloop, hrestarts⟩ := restartLoop_spec av cpu clock s.vt hfrom hlength hnodup
    have hremove : hashTableRemove s.htVtimers thr = some (s.htVtimers.setElem ndx
        { s.htVtimers.allElems ndx with removed := true }, some v) := by
      simp only [hashTableRemove, hfind, run_do, hdata]
    have hstep : s.htVtimers.StepOk (.remove thr) := fun i hi hremoved hkey =>
      nomatch (hok i hi hkey).symm.trans hremoved
    obtain ⟨ht, r, hexec, hht, hrep, -⟩ :=
      HashTable.exec_represents hinv.represents hinv.ok hstep
    rw [HashTable.exec, hremove] at hexec
    obtain ⟨rfl, -⟩ := Prod.mk.inj (some.inj hexec)
    have hlookup : m.lookup thr = some (some v) := hdata ▸ hlook
    refine ⟨⟨vt, _, stacklistFree s.slHeap v, s.numberUnsavedTimers⟩, ?_, rfl,
      .inr ⟨v, l, hlookup, hl, hrestarts, hinv.giveBack hlookup hht hrep⟩⟩
    rw [Vtimers.onSwitchIn, hremove]
    exact congrArg (fun o : Option (Memory V) => o.bind _) hloop

end Switches

end Kerninst.Vtimers
