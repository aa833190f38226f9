import Mathlib.Data.Finmap
import Kerninst.Driver.TablePack
import Kerninst.Lib.Checked

/-!
# The trap-patch hash table as a bounded finite map

The abstract table is a finite map from keys to data with at most 256 keys
(`TableMap`); `TableMap.apply` is what a call does to it and `TableMap.Replies`
what a call may answer. `HashTable.Represents` relates a table to the map of its
live pairs.

Two kinds of call leave the relation, and `HashTable.StepOk` excludes exactly
them, by looking at the table before the call:

* `hash_table_lookup`, `hash_table_update` and `hash_table_remove` do not test the
  `removed` flag, so they still find a removed key until its element is overwritten
  or packed away;
* an add that packs may link one element twice (`PackSafe`).

Every history whose calls are all of the other kind is a history of the finite
map (`HashTable.run_represents`).
-/

namespace Kerninst

open List Function HashTable

variable {α : Type}

/-- The abstract table. -/
abbrev TableMap (α : Type) := Finmap (fun _ : Key => Option α)

namespace TableMap

/-- The effect of a call on the abstract table. -/
def apply (m : TableMap α) : TableOp α → TableMap α
  | .init => ∅
  | .add data key =>
    if key ∈ m ∨ m.keys.card = htMaxNumElems then m else m.insert key data
  | .remove key => m.erase key
  | .lookup _ => m
  | .update key data => if key ∈ m then m.insert key data else m

/-- The reply a call must give. -/
def Replies (m : TableMap α) : TableOp α → TableReply α → Prop
  | .init, r => r = .done
  | .add _ key, r =>
    r = .status (if key ∈ m ∨ m.keys.card = htMaxNumElems then -1 else 0)
  | .remove key, r => r = .data (m.lookup key).join
  | .lookup key, r => r = .data (m.lookup key).join
  | .update key _, r => r = .status (if key ∈ m then 0 else -1)

/-- A history of the abstract table: calls, their replies, and the table at the
end. -/
inductive Run : TableMap α → List (TableOp α) → List (TableReply α) → TableMap α → Prop
  | nil (m) : Run m [] [] m
  | cons {m m' op ops r rs} : m.Replies op r → Run (m.apply op) ops rs m' →
      Run m (op :: ops) (r :: rs) m'

end TableMap

/-- The table holds exactly the entries of `m` as its live pairs. -/
def HashTable.Represents (ht : HashTable α) (m : TableMap α) : Prop :=
  ∀ k d, m.lookup k = some d ↔ (k, d) ∈ ht.pairs

/-- The calls that the table answers as a finite map, given the table before. -/
def HashTable.StepOk (ht : HashTable α) : TableOp α → Prop
  | .lookup key | .remove key => ∀ i < ht.numElems, (ht.allElems i).removed = true →
      (ht.allElems i).theKey = key → (ht.allElems i).theData = none
  | .update key _ => ∀ i < ht.numElems, (ht.allElems i).removed = true →
      (ht.allElems i).theKey ≠ key
  | .add _ _ => ht.numElems = htMaxNumElems → PackSafe ht.allElems (ht.numElems - 1)
  | .init => True

/-- Every call of a history meets `StepOk` in the table it finds. -/
def HashTable.StepsOk : HashTable α → List (TableOp α) → Prop
  | _, [] => True
  | ht, op :: ops => ht.StepOk op ∧ ∀ ht' r, ht.exec op = some (ht', r) → ht'.StepsOk ops

/-! ## Reading the relation -/

namespace HashTable.Represents

variable {ht : HashTable α} {m : TableMap α}

theorem lookup_eq_some (h : ht.Represents m) {k : Key} {d : Option α} :
    m.lookup k = some d ↔ ∃ i < ht.numElems, (ht.allElems i).removed = false ∧
      (ht.allElems i).theKey = k ∧ (ht.allElems i).theData = d :=
  (h k d).trans mem_livePairs

theorem mem_iff (h : ht.Represents m) {k : Key} :
    k ∈ m ↔ ∃ i < ht.numElems, (ht.allElems i).removed = false ∧
      (ht.allElems i).theKey = k := by
  rw [Finmap.mem_iff]
  constructor
  · rintro ⟨d, hd⟩
    obtain ⟨i, hi, hr, hk, -⟩ := h.lookup_eq_some.mp hd
    exact ⟨i, hi, hr, hk⟩
  · rintro ⟨i, hi, hr, hk⟩
    exact ⟨_, h.lookup_eq_some.mpr ⟨i, hi, hr, hk, rfl⟩⟩

/-- A well-formed table has as many live pairs as its map has keys. -/
theorem card_keys (h : ht.Represents m) (hok : ht.Ok) : m.keys.card = ht.pairs.length := by
  have hkeys : m.keys = (ht.pairs.map Prod.fst).toFinset := by
    ext k
    rw [Finmap.mem_keys, Finmap.mem_iff, mem_toFinset, mem_map]
    constructor
    · rintro ⟨d, hd⟩
      exact ⟨(k, d), (h k d).mp hd, rfl⟩
    · rintro ⟨⟨k', d⟩, hmem, rfl⟩
      exact ⟨d, (h k' d).mpr hmem⟩
  rw [hkeys, toFinset_card_of_nodup hok.nodup_keys, length_map]

/-- The relation only depends on the collection of live pairs. -/
theorem of_perm (h : ht.Represents m) {ht' : HashTable α} (hperm : ht'.pairs.Perm ht.pairs) :
    ht'.Represents m := fun k d => (h k d).trans hperm.mem_iff.symm

end HashTable.Represents

theorem HashTable.represents_init (ht : HashTable α) :
    (hashTableInitialize ht).Represents ∅ := by
  intro k d
  simp [hashTableInitialize, pairs, livePairs]

/-! ## Overwriting one element -/

/-- The live pairs after element `ndx` is overwritten under the same key: those of
the other keys, and that of `ndx` if it is live. -/
theorem HashTable.Ok.mem_pairs_setElem {ht : HashTable α} (hok : ht.Ok) {ndx : Nat}
    (hndx : ndx < ht.numElems) {e : HashTableElem α}
    (hkey : e.theKey = (ht.allElems ndx).theKey) {k : Key} {d : Option α} :
    (k, d) ∈ (ht.setElem ndx e).pairs ↔
      if k = e.theKey then e.removed = false ∧ e.theData = d else (k, d) ∈ ht.pairs := by
  have hat : (ht.setElem ndx e).allElems ndx = e := update_self ..
  have hne : ∀ i, i ≠ ndx → (ht.setElem ndx e).allElems i = ht.allElems i :=
    fun i hi => update_of_ne hi ..
  unfold pairs
  rw [mem_livePairs, mem_livePairs]
  split
  · -- the key of `ndx` is at `ndx` only
    rename_i hk
    constructor
    · rintro ⟨i, hi, hr, hki, hd⟩
      by_cases hin : i = ndx
      · rw [hin, hat] at hr hd
        exact ⟨hr, hd⟩
      · rw [hne i hin, hk, hkey] at hki
        exact absurd (hok.keys_inj i hi ndx hndx hki) hin
    · rintro ⟨hr, hd⟩
      exact ⟨ndx, hndx, by rw [hat]; exact hr, by rw [hat]; exact hk.symm, by rw [hat]; exact hd⟩
  · rename_i hk
    constructor
    · rintro ⟨i, hi, hr, hki, hd⟩
      by_cases hin : i = ndx
      · rw [hin, hat] at hki
        exact absurd hki.symm hk
      · rw [hne i hin] at hr hki hd
        exact ⟨i, hi, hr, hki, hd⟩
    · rintro ⟨i, hi, hr, hki, hd⟩
      have hin : i ≠ ndx := by
        rintro rfl
        exact hk (hki.symm.trans hkey.symm)
      exact ⟨i, hi, by rw [hne i hin]; exact hr, by rw [hne i hin]; exact hki,
        by rw [hne i hin]; exact hd⟩

/-- Overwriting a defined element under its key is an erasure if the new element is flagged, and an
insertion if not. -/
theorem HashTable.Represents.overwrite {ht : HashTable α} {m : TableMap α}
    (h : ht.Represents m) (hok : ht.Ok) {ndx : Nat} (hndx : ndx < ht.numElems)
    {e : HashTableElem α} (hkey : e.theKey = (ht.allElems ndx).theKey) :
    (ht.setElem ndx e).Represents
      (bif e.removed then m.erase e.theKey else m.insert e.theKey e.theData) := by
  intro k d
  rw [hok.mem_pairs_setElem hndx hkey]
  by_cases hk : k = e.theKey
  · subst hk
    cases hr : e.removed <;> simp
  · rw [if_neg hk]
    cases e.removed with
    | true =>
      rw [cond_true, Finmap.lookup_erase_ne hk]
      exact h k d
    | false =>
      rw [cond_false, Finmap.lookup_insert_of_ne _ hk]
      exact h k d

/-- Defining the next element is an insertion. -/
theorem HashTable.Represents.link {ht : HashTable α} {m : TableMap α} (h : ht.Represents m)
    {e : HashTableElem α} (hr : e.removed = false) (hfresh : e.theKey ∉ m) :
    ((ht.setElem ht.numElems e).link ht.numElems).Represents (m.insert e.theKey e.theData) := by
  have hpairs : ((ht.setElem ht.numElems e).link ht.numElems).pairs = ht.pairs ++ [e.pair] := by
    have hlink : ((ht.setElem ht.numElems e).link ht.numElems).pairs =
        livePairs (ht.setElem ht.numElems e).allElems (ht.numElems + 1) :=
      livePairs_congr fun i _ => link_agrees (ht.setElem ht.numElems e) ht.numElems i
    have hbelow : livePairs (ht.setElem ht.numElems e).allElems ht.numElems = ht.pairs :=
      livePairs_congr fun i hi => by
        simp [setElem, update_of_ne (Nat.ne_of_lt hi)]
    rw [hlink, livePairs_succ, hbelow]
    simp [setElem, hr]
  intro k d
  rw [hpairs, mem_append, mem_singleton, ← h k d]
  by_cases hk : k = e.theKey
  · subst hk
    rw [Finmap.lookup_insert, Finmap.lookup_eq_none.mpr hfresh]
    simp [HashTableElem.pair, eq_comm]
  · simp [HashTableElem.pair, hk]

/-! ## One call -/

section Step

variable {ht : HashTable α} {m : TableMap α}

/-- An add that need not pack: a live key is refused, a flagged element with the
key is overwritten, and otherwise the next element is defined. -/
theorem hashTableInsert_spec (h : ht.Represents m) (hok : ht.Ok)
    (hroom : ht.numElems < htMaxNumElems) (data : Option α) (key : Key) :
    ∃ ht', hashTableInsert ht data key = some (ht', if key ∈ m then -1 else 0) ∧ ht'.Ok ∧
      ht'.Represents (if key ∈ m then m else m.insert key data) := by
  obtain ⟨r, hfind, hr⟩ := hok.find key
  unfold hashTableInsert
  rw [hfind]
  rcases r with _ | ndx
  · -- no defined element holds the key
    have hnone : ∀ i < ht.numElems, (ht.allElems i).theKey ≠ key := fun i hi hk =>
      absurd ((hr i).mpr ⟨hi, hk⟩) (by simp)
    have hfresh : key ∉ m := fun hm => by
      obtain ⟨i, hi, -, hk⟩ := h.mem_iff.mp hm
      exact hnone i hi hk
    rw [if_neg hfresh, if_neg hfresh]
    let e : HashTableElem α :=
      { ht.allElems ht.numElems with theKey := key, theData := data, removed := false }
    refine ⟨_, rfl, ?_, h.link (e := e) rfl hfresh⟩
    refine (hok.setElem_undefined _).link hroom fun i hi => ?_
    have hi' : i ≠ ht.numElems := Nat.ne_of_lt hi
    simpa [setElem, update_of_ne hi'] using hnone i hi
  · obtain ⟨hndx, hkey⟩ := (hr ndx).mp rfl
    have hlive : key ∈ m ↔ (ht.allElems ndx).removed = false := by
      rw [h.mem_iff]
      constructor
      · rintro ⟨i, hi, hri, hki⟩
        rw [hok.keys_inj ndx hndx i hi (hkey.trans hki.symm)]
        exact hri
      · intro hrem
        exact ⟨ndx, hndx, hrem, hkey⟩
    cases hrem : (ht.allElems ndx).removed with
    | false =>
      have hm := hlive.mpr hrem
      rw [if_pos hm, if_pos hm]
      exact ⟨ht, by simp [hrem], hok, h⟩
    | true =>
      have hm : key ∉ m := fun hm => by
        rw [hlive.mp hm] at hrem
        exact absurd hrem (by simp)
      rw [if_neg hm, if_neg hm]
      let e : HashTableElem α :=
        { ht.allElems ndx with theKey := key, theData := data, removed := false }
      exact ⟨ht.setElem ndx e, by simp [hrem, e], hok.setElem hkey.symm rfl,
        h.overwrite hok hndx (e := e) hkey.symm⟩

/-- An add answers as the bounded map does, packing the table when it is full. -/
theorem hashTableAdd_spec (h : ht.Represents m) (hok : ht.Ok) {data : Option α} {key : Key}
    (hstep : ht.StepOk (.add data key)) :
    ∃ ht', hashTableAdd ht data key = some (ht',
        if key ∈ m ∨ m.keys.card = htMaxNumElems then -1 else 0) ∧ ht'.Ok ∧
      ht'.Represents (m.apply (.add data key)) := by
  have hcard := h.card_keys hok
  by_cases hfull : ht.numElems = htMaxNumElems
  · have hpos : 0 < ht.numElems := by rw [hfull]; decide
    obtain ⟨ht₁, hpack, hlen, -, hsafe, -⟩ := hashTablePack_spec hok hpos
    obtain ⟨hok₁, hperm⟩ := hsafe (hstep hfull)
    have hnum := hlen.trans hperm.length_eq
    have h₁ := h.of_perm hperm
    by_cases hstill : ht₁.numElems = htMaxNumElems
    · -- every element is live
      have hmax : m.keys.card = htMaxNumElems := by rw [hcard, ← hnum, hstill]
      exact ⟨ht₁, by simp [hashTableAdd, hfull, hpack, hstill, hmax], hok₁,
        by simpa [TableMap.apply, hmax] using h₁⟩
    · have hmax : m.keys.card ≠ htMaxNumElems := by rw [hcard, ← hnum]; exact hstill
      obtain ⟨ht', hins, hok', h'⟩ := hashTableInsert_spec h₁ hok₁
        (Nat.lt_of_le_of_ne hok₁.numElems_le hstill) data key
      exact ⟨ht', by simp [hashTableAdd, hfull, hpack, hstill, hmax, hins], hok',
        by simpa [TableMap.apply, hmax] using h'⟩
  · have hroom : ht.numElems < htMaxNumElems := Nat.lt_of_le_of_ne hok.numElems_le hfull
    have hmax : m.keys.card ≠ htMaxNumElems := by
      have hlen : ht.pairs.length ≤ ht.numElems := length_livePairs_le ht.allElems ht.numElems
      omega
    obtain ⟨ht', hins, hok', h'⟩ := hashTableInsert_spec h hok hroom data key
    exact ⟨ht', by simp [hashTableAdd, hfull, hmax, hins], hok',
      by simpa [TableMap.apply, hmax] using h'⟩

/-- The element a search for `key` finds, if any, against the map: an absent
element means an absent key, and a live element holds the key's datum. -/
theorem HashTable.Represents.find (h : ht.Represents m) (hok : ht.Ok) (key : Key) :
    (hashTableKeyandbin2elem ht key (binOf key) = some none ∧ key ∉ m) ∨
    ∃ ndx < ht.numElems, hashTableKeyandbin2elem ht key (binOf key) = some (some ndx) ∧
      (ht.allElems ndx).theKey = key ∧
      m.lookup key =
        if (ht.allElems ndx).removed then none else some (ht.allElems ndx).theData := by
  obtain ⟨r, hfind, hr⟩ := hok.find key
  rcases r with _ | ndx
  · refine Or.inl ⟨hfind, fun hm => ?_⟩
    obtain ⟨i, hi, -, hk⟩ := h.mem_iff.mp hm
    exact absurd ((hr i).mpr ⟨hi, hk⟩) (by simp)
  · obtain ⟨hndx, hkey⟩ := (hr ndx).mp rfl
    refine Or.inr ⟨ndx, hndx, hfind, hkey, ?_⟩
    cases hrem : (ht.allElems ndx).removed with
    | true =>
      refine Finmap.lookup_eq_none.mpr fun hm => ?_
      obtain ⟨i, hi, hri, hki⟩ := h.mem_iff.mp hm
      rw [hok.keys_inj i hi ndx hndx (hki.trans hkey.symm), hrem] at hri
      exact absurd hri (by simp)
    | false => exact h.lookup_eq_some.mpr ⟨ndx, hndx, hrem, hkey, rfl⟩

/-- What a search that meets `StepOk` finds is the datum of the map. -/
theorem HashTable.StepOk.found {key : Key} {ndx : Nat} (hstep : ht.StepOk (.lookup key))
    (hndx : ndx < ht.numElems) (hkey : (ht.allElems ndx).theKey = key)
    (hlook : m.lookup key =
      if (ht.allElems ndx).removed then none else some (ht.allElems ndx).theData) :
    (ht.allElems ndx).theData = (m.lookup key).join := by
  rw [hlook]
  cases hrem : (ht.allElems ndx).removed with
  | true => rw [hstep ndx hndx hrem hkey]; rfl
  | false => rfl

/-- **Step.** A call of the allowed kind keeps the table well formed and acts on
its map as the abstract call does. -/
theorem HashTable.exec_represents (h : ht.Represents m) (hok : ht.Ok) {op : TableOp α}
    (hstep : ht.StepOk op) :
    ∃ ht' r, ht.exec op = some (ht', r) ∧ ht'.Ok ∧ ht'.Represents (m.apply op) ∧
      m.Replies op r := by
  cases op with
  | init =>
    exact ⟨_, _, rfl, Ok.hashTableInitialize ht, ht.represents_init, rfl⟩
  | add data key =>
    obtain ⟨ht', hadd, hok', h'⟩ := hashTableAdd_spec h hok hstep
    exact ⟨ht', .status _, by rw [exec, hadd]; rfl, hok', h', rfl⟩
  | remove key =>
    rcases h.find hok key with ⟨hfind, hm⟩ | ⟨ndx, hndx, hfind, hkey, hlook⟩
    · refine ⟨ht, .data none, by simp [exec, hashTableRemove, hfind], hok, ?_, ?_⟩
      · have herase : m.erase key = m := Finmap.ext_lookup fun k => by
          by_cases hk : k = key
          · rw [hk, Finmap.lookup_erase, Finmap.lookup_eq_none.mpr hm]
          · exact Finmap.lookup_erase_ne hk
        rw [TableMap.apply, herase]
        exact h
      · rw [TableMap.Replies, Finmap.lookup_eq_none.mpr hm]
        rfl
    · refine ⟨ht.setElem ndx { ht.allElems ndx with removed := true },
        .data (ht.allElems ndx).theData, by simp [exec, hashTableRemove, hfind],
        hok.setElem rfl rfl, ?_, congrArg TableReply.data (hstep.found hndx hkey hlook)⟩
      subst hkey
      exact h.overwrite hok hndx (e := { ht.allElems ndx with removed := true }) rfl
  | lookup key =>
    rcases h.find hok key with ⟨hfind, hm⟩ | ⟨ndx, hndx, hfind, hkey, hlook⟩
    · refine ⟨ht, .data none, by simp [exec, hashTableLookup, hfind], hok, h, ?_⟩
      rw [TableMap.Replies, Finmap.lookup_eq_none.mpr hm]
      rfl
    · exact ⟨ht, .data (ht.allElems ndx).theData, by simp [exec, hashTableLookup, hfind], hok, h,
        congrArg TableReply.data (hstep.found hndx hkey hlook)⟩
  | update key data =>
    rcases h.find hok key with ⟨hfind, hm⟩ | ⟨ndx, hndx, hfind, hkey, hlook⟩
    · refine ⟨ht, .status (-1), by simp [exec, hashTableUpdate, hfind], hok, ?_, ?_⟩
      · simpa [TableMap.apply, hm] using h
      · simp [TableMap.Replies, hm]
    · have hrem : (ht.allElems ndx).removed = false := by
        cases hrem : (ht.allElems ndx).removed with
        | true => exact absurd hkey (hstep ndx hndx hrem)
        | false => rfl
      have hm : key ∈ m := h.mem_iff.mpr ⟨ndx, hndx, hrem, hkey⟩
      refine ⟨ht.setElem ndx { ht.allElems ndx with theData := data }, .status 0,
        by simp [exec, hashTableUpdate, hfind], hok.setElem rfl rfl, ?_, ?_⟩
      · subst hkey
        rw [TableMap.apply, if_pos hm]
        have hset := h.overwrite hok hndx (e := { ht.allElems ndx with theData := data }) rfl
        rwa [hrem] at hset
      · simp [TableMap.Replies, hm]

end Step

/-! ## Whole histories -/

/-- **Run.** A history whose calls are all of the allowed kind, from a well-formed
table, runs to its end and is a history of the finite map. -/
theorem HashTable.run_represents : ∀ (ops : List (TableOp α)) {ht : HashTable α}
    {m : TableMap α}, ht.Represents m → ht.Ok → ht.StepsOk ops →
    ∃ ht' rs m', ht.run ops = some (ht', rs) ∧ m.Run ops rs m' ∧ ht'.Ok ∧ ht'.Represents m' := by
  intro ops
  induction ops with
  | nil => intro ht m h hok _; exact ⟨ht, [], m, rfl, .nil m, hok, h⟩
  | cons op ops ih =>
    intro ht m h hok hsteps
    obtain ⟨ht₁, r, hexec, hok₁, h₁, hr⟩ := exec_represents h hok hsteps.1
    obtain ⟨ht', rs, m', hrun, hspec, hok', h'⟩ := ih h₁ hok₁ (hsteps.2 ht₁ r hexec)
    exact ⟨ht', r :: rs, m', by simp [run, hexec, hrun], .cons hr hspec, hok', h'⟩

/-- **The table refines the bounded map.** From any memory, an initialized table
whose calls are all of the allowed kind answers every call as a finite map of at
most 256 keys does. -/
theorem hashTable_refines_boundedMap (mem : HashTable α) (ops : List (TableOp α))
    (hsteps : (hashTableInitialize mem).StepsOk ops) :
    ∃ ht' rs m', (hashTableInitialize mem).run ops = some (ht', rs) ∧
      TableMap.Run ∅ ops rs m' ∧ ht'.Represents m' := by
  obtain ⟨ht', rs, m', hrun, hspec, -, h'⟩ :=
    run_represents ops mem.represents_init (.hashTableInitialize mem) hsteps
  exact ⟨ht', rs, m', hrun, hspec, h'⟩

theorem HashTable.stepsOk_cons {ht ht₁ : HashTable α} {op : TableOp α}
    {ops : List (TableOp α)} {r : TableReply α} (hexec : ht.exec op = some (ht₁, r)) :
    ht.StepsOk (op :: ops) ↔ ht.StepOk op ∧ ht₁.StepsOk ops := by
  refine and_congr_right fun _ => ⟨fun h => h ht₁ r hexec, fun h ht' r' hexec' => ?_⟩
  obtain ⟨rfl, rfl⟩ := Prod.mk.inj (Option.mem_unique hexec hexec')
  exact h

/-- A memory of zeroes. -/
def blankTable (α : Type) : HashTable α where
  allElems _ := { theKey := 0, removed := false, theData := none, next := none }
  bins _ := none
  numElems := 0

/-- A key that is removed and added again is found with its new datum. -/
theorem hashTable_refines_readd :
    (hashTableInitialize (blankTable Nat)).StepsOk
        [.add (some 7) 5, .lookup 5, .remove 5, .add (some 8) 5, .lookup 5] ∧
      ∃ ht' rs m', (hashTableInitialize (blankTable Nat)).run
          [.add (some 7) 5, .lookup 5, .remove 5, .add (some 8) 5, .lookup 5] = some (ht', rs) ∧
        TableMap.Run ∅ [.add (some 7) 5, .lookup 5, .remove 5, .add (some 8) 5, .lookup 5] rs m' ∧
        ht'.Represents m' := by
  have hsteps : (hashTableInitialize (blankTable Nat)).StepsOk
      [.add (some 7) 5, .lookup 5, .remove 5, .add (some 8) 5, .lookup 5] := by
    refine (stepsOk_cons rfl).mpr ⟨fun h => absurd h (by decide), ?_⟩
    refine (stepsOk_cons rfl).mpr ⟨?_, ?_⟩
    · unfold StepOk; decide
    refine (stepsOk_cons rfl).mpr ⟨?_, ?_⟩
    · unfold StepOk; decide
    refine (stepsOk_cons rfl).mpr ⟨fun h => absurd h (by decide), ?_⟩
    refine (stepsOk_cons rfl).mpr ⟨?_, trivial⟩
    unfold StepOk; decide
  exact ⟨hsteps, hashTable_refines_boundedMap (blankTable Nat) _ hsteps⟩

/-- A lookup finds a key that has just been removed: the replies are not those of
any finite map. -/
theorem hashTable_lookup_finds_removed :
    ((hashTableInitialize (blankTable Nat)).run
        [.add (some 7) 5, .remove 5, .lookup 5]).map Prod.snd =
      some [.status 0, .data (some 7), .data (some 7)] ∧
    ¬∃ m', TableMap.Run (∅ : TableMap Nat) [.add (some 7) 5, .remove 5, .lookup 5]
      [.status 0, .data (some 7), .data (some 7)] m' := by
  refine ⟨by decide, ?_⟩
  rintro ⟨m', hrun⟩
  obtain _ | ⟨_, hrun⟩ := hrun
  obtain _ | ⟨_, hrun⟩ := hrun
  obtain _ | ⟨hreply, _⟩ := hrun
  simp [TableMap.Replies, TableMap.apply] at hreply

/-! ## Packing a table -/

/-- What packing should leave: the live pairs of before, each key once and linked from its bin, and
nothing else. -/
structure HashTable.IsPacked (ht ht' : HashTable α) : Prop where
  ok : ht'.Ok
  pairs : ht'.pairs.Perm ht.pairs
  numElems : ht'.numElems = ht.pairs.length
  live : ∀ i < ht'.numElems, (ht'.allElems i).removed = false

/-- The table after a call. -/
def HashTable.after (ht : HashTable α) (op : TableOp α) : Option (HashTable α) :=
  (ht.exec op).map Prod.fst

theorem HashTable.Ok.exists_represents {ht : HashTable α} (hok : ht.Ok) :
    ∃ m : TableMap α, ht.Represents m := by
  let l : List (Sigma fun _ : Key => Option α) := ht.pairs.map fun p => ⟨p.1, p.2⟩
  have hkeys : l.keys = ht.pairs.map Prod.fst := by simp [l, keys]
  have hnodup : l.NodupKeys := by
    rw [NodupKeys, hkeys]
    exact hok.nodup_keys
  refine ⟨l.toFinmap, fun k d => ?_⟩
  rw [Finmap.dlookup_list_toFinmap, ← Option.mem_def, mem_dlookup_iff hnodup]
  simp [l]

/-- Calls keep the table well formed, if an add that packs avoids the flaw. Here a removed key may
be looked up, and updated. -/
theorem HashTable.Ok.after {ht ht' : HashTable α} (hok : ht.Ok) {op : TableOp α}
    (hadd : ∀ data key, op = .add data key → ht.StepOk (.add data key))
    (h : ht.after op = some ht') : ht'.Ok := by
  cases op with
  | init =>
    cases h
    exact .hashTableInitialize ht
  | add data key =>
    obtain ⟨m, hm⟩ := hok.exists_represents
    obtain ⟨ht₁, hadd, hok₁, -⟩ := hashTableAdd_spec hm hok (hadd data key rfl)
    simp only [HashTable.after, HashTable.exec, hadd, Option.map_some, Option.some.injEq] at h
    exact h ▸ hok₁
  | lookup key =>
    simp only [HashTable.after, HashTable.exec, Option.map_eq_some_iff] at h
    obtain ⟨_, ⟨_, -, rfl⟩, rfl⟩ := h
    exact hok
  | remove key | update key _ =>
    obtain ⟨r, hfind, -⟩ := hok.find key
    cases r <;> simp only [HashTable.after, HashTable.exec, hashTableRemove, hashTableUpdate, hfind,
      do_eq_some, Option.map_eq_some_iff] at h
    · obtain ⟨_, ⟨_, rfl, rfl⟩, rfl⟩ := h
      exact hok
    · obtain ⟨_, ⟨_, rfl, rfl⟩, rfl⟩ := h
      exact hok.setElem rfl rfl

/-- **Packing keeps exactly the live entries** of a table that calls have led to, exactly if the
table is not empty and the flaw is not met. Earlier packs, in adds to the full table, are assumed
to have avoided it. -/
theorem hashTablePack_isPacked_iff (mem : HashTable α) (ops : List (TableOp α))
    (hops : AllSteps HashTable.after (fun ht op => ∀ data key, op = .add data key →
      ht.StepOk (.add data key)) (hashTableInitialize mem) ops)
    {ht : HashTable α} (hrun : ops.foldlM HashTable.after (hashTableInitialize mem) = some ht) :
    (∃ ht', hashTablePack ht = some ht' ∧ ht.IsPacked ht') ↔
      0 < ht.numElems ∧ PackSafe ht.allElems (ht.numElems - 1) := by
  have hok : ht.Ok := hops.keeps (fun _ _ _ hok hadd h => hok.after hadd h)
    (.hashTableInitialize mem) hrun
  constructor
  · rintro ⟨ht', hpack, hpacked⟩
    have hpos : 0 < ht.numElems := by
      refine Nat.pos_of_ne_zero fun h0 => ?_
      rw [hashTablePack, if_pos h0] at hpack
      cases hpack
    obtain ⟨ht₁, hpack₁, -, -, -, hother⟩ := hashTablePack_spec hok hpos
    obtain rfl := Option.mem_unique hpack hpack₁
    refine ⟨hpos, by_contra fun hbad => ?_⟩
    have hlen := hother hbad
    rw [hpacked.pairs.length_eq] at hlen
    omega
  · rintro ⟨hpos, hs⟩
    obtain ⟨ht', hpack, hnum, hlive, hsafe, -⟩ := hashTablePack_spec hok hpos
    obtain ⟨hok', hperm⟩ := hsafe hs
    exact ⟨ht', hpack, hok', hperm, hnum.trans hperm.length_eq, hlive⟩

/-- Two keys, of which the second is removed. -/
theorem isPacked_last_removed : ∃ ht ht', [TableOp.add (some 7) 5, .add (some 8) 6,
    .remove 6].foldlM HashTable.after (hashTableInitialize (blankTable Nat)) = some ht ∧
      hashTablePack ht = some ht' ∧ ht.IsPacked ht' := by
  have hops : AllSteps after (fun ht op => ∀ data key, op = .add data key →
      ht.StepOk (.add data key)) (hashTableInitialize (blankTable Nat))
      [.add (some 7) 5, .add (some 8) 6, .remove 6] := by
    refine ⟨fun _ _ _ h => absurd h (by decide), fun s hs => ?_⟩
    cases hs
    refine ⟨fun _ _ _ h => absurd h (by decide), fun s hs => ⟨nofun, fun _ _ => trivial⟩⟩
  obtain ⟨ht', hpacked⟩ := (hashTablePack_isPacked_iff (blankTable Nat) _ hops rfl).mpr
    ⟨by decide, fun n _ hle h => by
      obtain rfl : n = 0 := Nat.le_zero.mp (Nat.le_of_succ_le_succ hle)
      exact absurd h.1 (by decide)⟩
  exact ⟨_, ht', rfl, hpacked⟩

/-- Two keys, of which the first is removed: the second one is there twice. -/
theorem not_isPacked_first_removed : ∃ ht, [TableOp.add (some 7) 5, .add (some 8) 6,
    .remove 5].foldlM HashTable.after (hashTableInitialize (blankTable Nat)) = some ht ∧
      ¬ ∃ ht', hashTablePack ht = some ht' ∧ ht.IsPacked ht' := by
  refine ⟨_, rfl, ?_⟩
  rintro ⟨ht', hpack, h⟩
  cases hpack
  exact absurd h.pairs.length_eq (by decide)

end Kerninst
