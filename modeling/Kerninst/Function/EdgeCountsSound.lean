import Mathlib.Algebra.Order.BigOperators.Group.List
import Mathlib.Algebra.Order.Ring.Nat
import Mathlib.Data.Finset.Card
import Kerninst.Function.EdgeCounts

/-!
# Edge counts are sound

A *flow* is an assignment of true execution counts to the edges of a graph that
conserves flow at every block (`Flow`). When the block counts come from a flow, every
edge that the working set determines gets its true count, in whatever order the blocks
are handed out: the count of a block minus its known edges on one side is the sum of
the unknown ones there, so a single unknown edge is determined (`proc1Edge_loop`).

`Sound t c` is the invariant: what the counts `c` know, they know from the flow `t`.
A round keeps it, never fails an assertion, and lowers a weight (`Sound.node`); runs of
rounds in any order are built from that.
-/

namespace Kerninst

open BlockAndEdgeCounts List AList

/-- Whether a block has an edge to an exit. -/
def Cfg.isExitPred (fn : Cfg) (s : SpecialId) (n : Nat) : Bool :=
  match fn.getBasicBlockFromId n with
  | some bb => decide (BBId.special s ∈ bb.succs)
  | none => false

/-- The blocks with an edge to an exit. -/
def Cfg.exitPreds (fn : Cfg) (s : SpecialId) : List BBId :=
  ((List.range fn.numBBs).filter (fn.isExitPred s)).map .reg

/-- The count of a pseudo-block under an assignment of counts to edges. -/
def Cfg.specialCount (fn : Cfg) (count : EdgeId → Nat) : SpecialId → Nat
  | .dummyEntry => count ⟨.special .dummyEntry, .reg fn.entryBB⟩
  | s => ((fn.exitPreds s).map fun pred => count ⟨pred, .special s⟩).sum

/-- A true assignment of execution counts: flow is conserved at every block, and every
block count is below `UINT_MAX`. -/
structure Flow (fn : Cfg) where
  count : EdgeId → Nat
  blockCount : Nat → Nat
  out_eq : ∀ n bb, fn.getBasicBlockFromId n = some bb →
    (bb.succs.map fun succ => count ⟨.reg n, succ⟩).sum = blockCount n
  in_eq : ∀ n bb, fn.getBasicBlockFromId n = some bb →
    (bb.preds.map fun pred => count ⟨pred, .reg n⟩).sum +
      (if n = fn.entryBB then count ⟨.special .dummyEntry, .reg n⟩ else 0) = blockCount n
  blockCount_lt : ∀ n < fn.numBBs, blockCount n < uintMax
  special_lt : ∀ s, fn.specialCount count s < uintMax

/-! ## The loops over the edges of a block -/

section Loop

variable {c : BlockAndEdgeCounts} {edge : BBId → EdgeId} {t : EdgeId → Nat} {others : List BBId}

/-- The edge to or from a block is unknown. -/
def BlockAndEdgeCounts.Unknown (c : BlockAndEdgeCounts) (e : EdgeId) : Prop :=
  c.edgeCounts.lookup e = some uintMax

instance (c : BlockAndEdgeCounts) (e : EdgeId) : Decidable (c.Unknown e) :=
  inferInstanceAs (Decidable (_ = _))

/-- An edge is in the dictionary, unknown or with its true count. -/
def BlockAndEdgeCounts.Agrees (c : BlockAndEdgeCounts) (t : EdgeId → Nat) (e : EdgeId) : Prop :=
  c.Unknown e ∨ c.edgeCounts.lookup e = some (t e)

/-- The true counts of the edges of a list that are known. -/
def knownSum (c : BlockAndEdgeCounts) (edge : BBId → EdgeId) (t : EdgeId → Nat)
    (others : List BBId) : Nat :=
  ((others.filter fun o => ¬c.Unknown (edge o)).map fun o => t (edge o)).sum

theorem sum_eq_knownSum_add (c : BlockAndEdgeCounts) (edge : BBId → EdgeId) (t : EdgeId → Nat)
    (others : List BBId) :
    (others.map fun o => t (edge o)).sum = knownSum c edge t others +
      ((others.filter fun o => c.Unknown (edge o)).map fun o => t (edge o)).sum := by
  have hperm := (filter_append_perm (fun o => decide (c.Unknown (edge o))) others).map
    fun o => t (edge o)
  rw [← hperm.sum_eq, map_append, sum_append, Nat.add_comm, knownSum]
  simp

theorem knownSum_concat (others : List BBId) (o : BBId) :
    knownSum c edge t (others ++ [o]) =
      knownSum c edge t others + if c.Unknown (edge o) then 0 else t (edge o) := by
  unfold knownSum
  by_cases hu : c.Unknown (edge o) <;> simp [hu]

/-- One edge of the loop: an unknown edge is counted, a known one is taken off the block
count, which it never exceeds. -/
theorem proc1Edge_eq {o : BBId} {blockCount sum : Nat} {info : KnownInfo}
    (hblock : blockCount < uintMax) (hag : c.Agrees t (edge o))
    (hinfo : info.sumOfUnknown = blockCount - sum)
    (hsum : sum + (if c.Unknown (edge o) then 0 else t (edge o)) ≤ blockCount) :
    ∃ info', c.proc1Edge (edge o) o blockCount info = some info' ∧
      info'.sumOfUnknown = blockCount - (sum + if c.Unknown (edge o) then 0 else t (edge o)) ∧
      info'.numUnknown = info.numUnknown + (if c.Unknown (edge o) then 1 else 0) ∧
      info'.anUnknown = if c.Unknown (edge o) then some o else info.anUnknown := by
  unfold uintMax at hblock
  have hcheck : check (blockCount ≠ uintMax) = some () :=
    check_pos (by unfold uintMax; omega)
  by_cases hu : c.Unknown (edge o)
  · have hlook : c.edgeCounts.lookup (edge o) = some uintMax := hu
    refine ⟨{ info with numUnknown := info.numUnknown + 1, anUnknown := some o }, ?_, ?_⟩
    · simp [proc1Edge, hcheck, hlook]
    · simp [hu, hinfo]
  · have hlook : c.edgeCounts.lookup (edge o) = some (t (edge o)) := hag.resolve_left hu
    rw [if_neg hu] at hsum
    have hne : t (edge o) ≠ uintMax := by unfold uintMax; omega
    have hwrap : (info.sumOfUnknown + 2 ^ 32 - t (edge o)) % 2 ^ 32 =
        blockCount - (sum + t (edge o)) := by omega
    refine ⟨{ info with
      sumOfKnown := (info.sumOfKnown + t (edge o)) % 2 ^ 32
      sumOfUnknown := blockCount - (sum + t (edge o)) }, ?_, ?_⟩
    · simp only [proc1Edge, hcheck, hlook, run_do, hwrap]
      rw [if_pos hne, if_neg (by omega)]
    · simp [hu]

/-- **The loop over one side of a block.** If the true counts of the edges add up to the
block count, the loop succeeds, and a single unknown edge is left with its true count. -/
theorem proc1Edge_loop {blockCount : Nat} {f : KnownInfo → BBId → Option KnownInfo}
    (hf : ∀ o ∈ others, ∀ info, f info o = c.proc1Edge (edge o) o blockCount info)
    (hblock : blockCount < uintMax) (hag : ∀ o ∈ others, c.Agrees t (edge o))
    (hsum : (others.map fun o => t (edge o)).sum = blockCount) :
    ∃ info, others.foldlM f ⟨0, 0, blockCount, none⟩ = some info ∧
      (info.numUnknown = 1 → ∃ o ∈ others, info.anUnknown = some o ∧ c.Unknown (edge o) ∧
        info.sumOfUnknown = t (edge o)) := by
  obtain ⟨info, hrun, hunk, hnum, hany⟩ := foldlM_total
    (I := fun pre info => info.sumOfUnknown = blockCount - knownSum c edge t pre ∧
      info.numUnknown = (pre.filter fun o => c.Unknown (edge o)).length ∧
      info.anUnknown = (pre.filter fun o => c.Unknown (edge o)).getLast?)
    others (f := f) (s := ⟨0, 0, blockCount, none⟩) ⟨rfl, rfl, rfl⟩ (by
      intro pre o post info hl ⟨hunk, hnum, hany⟩
      have ho : o ∈ others := by rw [hl]; simp
      have hle : knownSum c edge t (pre ++ [o]) ≤ blockCount := by
        have hall := sum_eq_knownSum_add c edge t (pre ++ [o])
        rw [hl] at hsum
        simp only [map_append, map_cons, map_nil, sum_append, sum_cons,
          sum_nil] at hsum hall
        omega
      rw [knownSum_concat] at hle
      obtain ⟨info', hstep, hunk', hnum', hany'⟩ := proc1Edge_eq hblock (hag o ho) hunk hle
      refine ⟨info', by rw [hf o ho]; exact hstep, by rw [knownSum_concat]; exact hunk', ?_, ?_⟩
      · by_cases hu : c.Unknown (edge o) <;> simp [filter_append, hu, hnum', hnum]
      · by_cases hu : c.Unknown (edge o) <;> simp [hu, hany', hany])
  refine ⟨info, hrun, fun hone => ?_⟩
  rw [hone] at hnum
  obtain ⟨o, ho⟩ := length_eq_one_iff.mp hnum.symm
  have hmem : o ∈ others.filter fun o => c.Unknown (edge o) := by rw [ho]; simp
  have hall := sum_eq_knownSum_add c edge t others
  rw [ho, hsum] at hall
  rw [mem_filter, decide_eq_true_eq] at hmem
  refine ⟨o, hmem.1, by rw [hany, ho]; rfl, hmem.2, ?_⟩
  simp only [map_cons, map_nil, sum_cons, sum_nil] at hall
  omega

end Loop

/-! ## The invariant -/

/-- The edges of a graph, with that from the dummy entry block. -/
def Cfg.IsEdge (fn : Cfg) (e : EdgeId) : Prop :=
  e = ⟨.special .dummyEntry, .reg fn.entryBB⟩ ∨
    ∃ n bb, fn.getBasicBlockFromId n = some bb ∧ e.fromBbid = .reg n ∧ e.toBbid ∈ bb.succs

/-- What the counts know, they know from the flow. -/
structure Sound {fn : Cfg} (t : Flow fn) (c : BlockAndEdgeCounts) : Prop where
  fn_eq : c.fn = fn
  reg_eq : c.regBlockCounts = t.blockCount
  entry_eq : c.succsOfEntryBlock = [.reg fn.entryBB]
  exits_eq : ∀ s, Cfg.IsExit s → c.predsOfExitBlocks s = fn.exitPreds s
  keys : ∀ e, e ∈ c.edgeCounts ↔ fn.IsEdge e
  edges : ∀ e, fn.IsEdge e → c.Agrees t.count e
  special : ∀ s, (c.specialBlockCounts s).2 = false ∧
    ((c.specialBlockCounts s).1 = uintMax ∨
      (c.specialBlockCounts s).1 = fn.specialCount t.count s)

variable {b : BBId}

section Neighbours

variable {fn : Cfg} {t : Flow fn} {c : BlockAndEdgeCounts}

theorem mem_allBlocks :
    b ∈ allBlocks fn ↔ (∃ s, b = .special s) ∨ ∃ n < fn.numBBs, b = .reg n := by
  unfold allBlocks preference
  rw [mem_toFinset, mem_append, mem_map]
  constructor
  · rintro (h | ⟨n, hn, rfl⟩)
    · refine .inl ?_
      simp only [mem_cons, not_mem_nil, or_false] at h
      rcases h with rfl | rfl | rfl <;> exact ⟨_, rfl⟩
    · exact .inr ⟨n, mem_range.mp hn, rfl⟩
  · rintro (⟨s, rfl⟩ | ⟨n, hn, rfl⟩)
    · cases s <;> simp
    · exact .inr ⟨n, mem_range.mpr hn, rfl⟩

theorem mem_exitPreds {s : SpecialId} :
    b ∈ fn.exitPreds s ↔ ∃ n bb, fn.getBasicBlockFromId n = some bb ∧ b = .reg n ∧
      BBId.special s ∈ bb.succs := by
  rw [Cfg.exitPreds, mem_map]
  constructor
  · rintro ⟨n, hn, rfl⟩
    rw [mem_filter, Cfg.isExitPred] at hn
    rcases hbb : fn.getBasicBlockFromId n with _ | bb
    · rw [hbb] at hn
      exact absurd hn.2 (by simp)
    · rw [hbb] at hn
      exact ⟨n, bb, hbb, rfl, by simpa using hn.2⟩
  · rintro ⟨n, bb, hbb, rfl, hs⟩
    refine ⟨n, mem_filter.mpr ⟨?_, ?_⟩, rfl⟩
    · exact mem_range.mpr (Cfg.lt_of_getBasicBlockFromId hbb)
    · rw [Cfg.isExitPred, hbb]
      simpa using hs

/-- The true count of a block, of any kind. -/
def Flow.countOf (t : Flow fn) : BBId → Nat
  | .reg n => t.blockCount n
  | .special s => fn.specialCount t.count s
  | .unanalyzable => 0

theorem Flow.countOf_lt (t : Flow fn) (hb : b ∈ allBlocks fn) :
    t.countOf b < uintMax := by
  rcases mem_allBlocks.mp hb with ⟨s, rfl⟩ | ⟨n, hn, rfl⟩
  · exact t.special_lt s
  · exact t.blockCount_lt n hn

/-- **The successors of a block**: they are blocks, the edges to them are edges of the
graph, and, unless there are none, their true counts add up to that of the block. -/
theorem Sound.succsOf (h : Sound t c) (hfn : fn.Mirrored) (hb : b ∈ allBlocks fn) :
    ∃ l, c.succsOf b = some l ∧
      (∀ o ∈ l, o ∈ allBlocks fn ∧ o ≠ .unanalyzable ∧ fn.IsEdge ⟨b, o⟩) ∧
      (l = [] ∨ (l.map fun o => t.count ⟨b, o⟩).sum = t.countOf b) := by
  rcases mem_allBlocks.mp hb with ⟨s, rfl⟩ | ⟨n, hn, rfl⟩
  · cases s with
    | dummyEntry =>
      refine ⟨[.reg fn.entryBB], ?_, ?_, .inr ?_⟩
      · simp [succsOf, h.entry_eq, check]
      · intro o ho
        obtain rfl := mem_singleton.mp ho
        exact ⟨mem_allBlocks.mpr (.inr ⟨_, fn.entry_lt, rfl⟩), by simp, .inl rfl⟩
      · simp [Flow.countOf, Cfg.specialCount]
    | interProcBranchExit | xExit => exact ⟨[], rfl, by simp, .inl rfl⟩
  · obtain ⟨bb, hbb⟩ := Cfg.getBasicBlockFromId_eq_some hn
    refine ⟨bb.succs, ?_, fun o ho => ⟨?_, ?_, .inr ⟨n, bb, hbb, rfl, ho⟩⟩, .inr ?_⟩
    · simp [succsOf, h.fn_eq, hbb]
    · rcases hfn.succs_valid n bb hbb o ho with ⟨e, -, rfl⟩ | ⟨m, hm, rfl⟩
      · exact mem_allBlocks.mpr (.inl ⟨e, rfl⟩)
      · exact mem_allBlocks.mpr (.inr ⟨m, hm, rfl⟩)
    · rcases hfn.succs_valid n bb hbb o ho with ⟨e, -, rfl⟩ | ⟨m, hm, rfl⟩ <;> simp
    · exact t.out_eq n bb hbb

/-- **The predecessors of a block**, likewise. -/
theorem Sound.predsOf (h : Sound t c) (hfn : fn.Mirrored) (hb : b ∈ allBlocks fn) :
    ∃ l, c.predsOf b = some l ∧
      (∀ o ∈ l, o ∈ allBlocks fn ∧ fn.IsEdge ⟨o, b⟩) ∧
      (l = [] ∨ (l.map fun o => t.count ⟨o, b⟩).sum = t.countOf b) := by
  have hexit : ∀ s, Cfg.IsExit s →
      (∀ o ∈ fn.exitPreds s, o ∈ allBlocks fn ∧ fn.IsEdge ⟨o, .special s⟩) := by
    intro s _ o ho
    obtain ⟨n, bb, hbb, rfl, hs⟩ := mem_exitPreds.mp ho
    exact ⟨mem_allBlocks.mpr (.inr ⟨n, Cfg.lt_of_getBasicBlockFromId hbb, rfl⟩),
      .inr ⟨n, bb, hbb, rfl, hs⟩⟩
  rcases mem_allBlocks.mp hb with ⟨s, rfl⟩ | ⟨n, hn, rfl⟩
  · cases s with
    | dummyEntry => exact ⟨[], rfl, by simp, .inl rfl⟩
    | interProcBranchExit =>
      exact ⟨_, congrArg some (h.exits_eq _ (.inl rfl)), hexit _ (.inl rfl), .inr rfl⟩
    | xExit =>
      exact ⟨_, congrArg some (h.exits_eq _ (.inr rfl)), hexit _ (.inr rfl), .inr rfl⟩
  · obtain ⟨bb, hbb⟩ := Cfg.getBasicBlockFromId_eq_some hn
    have hpreds : ∀ o ∈ bb.preds, o ∈ allBlocks fn ∧ fn.IsEdge ⟨o, .reg n⟩ := by
      intro o ho
      obtain ⟨m, hm, rfl⟩ := hfn.preds_valid n bb hbb o ho
      obtain ⟨cc, hcc⟩ := Cfg.getBasicBlockFromId_eq_some hm
      exact ⟨mem_allBlocks.mpr (.inr ⟨m, hm, rfl⟩),
        .inr ⟨m, cc, hcc, rfl, (hfn.mem_preds_iff hcc hbb).mp ho⟩⟩
    have hin := t.in_eq n bb hbb
    by_cases he : n = fn.entryBB
    · refine ⟨bb.preds ++ [.special .dummyEntry], ?_, fun o ho => ?_, .inr ?_⟩
      · simp [predsOf, h.fn_eq, hbb, if_pos he]
      · rcases mem_append.mp ho with ho | ho
        · exact hpreds o ho
        · obtain rfl := mem_singleton.mp ho
          exact ⟨mem_allBlocks.mpr (.inl ⟨_, rfl⟩), .inl (by rw [he])⟩
      · rw [if_pos he] at hin
        simpa [Flow.countOf] using hin
    · refine ⟨bb.preds, ?_, hpreds, .inr ?_⟩
      · simp [predsOf, h.fn_eq, hbb, he]
      · rw [if_neg he] at hin
        simpa [Flow.countOf] using hin

/-- A block of the graph has a known count, the true one, or is a pseudo-block whose count
is unknown. -/
theorem Sound.blockCountFor (h : Sound t c) (hb : b ∈ allBlocks fn) :
    c.blockCountFor b false = some none ∨ c.blockCountFor b false = some (some (t.countOf b)) := by
  have hlt := t.countOf_lt hb
  rcases mem_allBlocks.mp hb with ⟨s, rfl⟩ | ⟨n, hn, rfl⟩
  · rcases (h.special s).2 with hs | hs
    · left
      simp [blockCountFor, storedBlockCount, hs, check]
    · right
      have hne : (c.specialBlockCounts s).1 ≠ uintMax := by
        rw [hs]
        exact Nat.ne_of_lt (t.special_lt s)
      rw [Flow.countOf, ← hs]
      simp [blockCountFor, storedBlockCount, hne]
  · right
    have hne : t.blockCount n ≠ uintMax := Nat.ne_of_lt (t.blockCount_lt n hn)
    simp [blockCountFor, storedBlockCount, regBlockCount, h.fn_eq, h.reg_eq, check,
      hn, hne, Flow.countOf]

end Neighbours

/-! ## One round -/

section Round

variable {fn : Cfg} {t : Flow fn} {c c' : BlockAndEdgeCounts} {ws ws' : Finset BBId}

/-- The unknown edges. -/
def BlockAndEdgeCounts.unknownEdges (c : BlockAndEdgeCounts) : Finset EdgeId :=
  c.edgeCounts.keys.toFinset.filter fun e => c.Unknown e

/-- What a round lowers: an edge weighs more than the blocks that determining it can put
back into the working set. -/
def BlockAndEdgeCounts.weight (c : BlockAndEdgeCounts) (ws : Finset BBId) : Nat :=
  3 * c.unknownEdges.card + ws.card

/-- What every part of a round does. -/
structure Progress (t : Flow fn) (c : BlockAndEdgeCounts) (ws : Finset BBId)
    (c' : BlockAndEdgeCounts) (ws' : Finset BBId) : Prop where
  sound : Sound t c'
  blocks : ws' ⊆ allBlocks fn
  weight_le : c'.weight ws' ≤ c.weight ws

theorem Progress.refl (h : Sound t c) (hws : ws ⊆ allBlocks fn) : Progress t c ws c ws :=
  ⟨h, hws, Nat.le_refl _⟩

variable {e : EdgeId}

theorem BlockAndEdgeCounts.Unknown.mem (hu : c.Unknown e) : e ∈ c.edgeCounts :=
  lookup_isSome.mp (by rw [hu]; rfl)

/-- Writing an unknown edge with its true count. -/
theorem Sound.insert (h : Sound t c) (hu : c.Unknown e) :
    Sound t { c with edgeCounts := c.edgeCounts.insert e (t.count e) } := by
  refine { h with keys := fun e' => ?_, edges := fun e' he' => ?_ }
  · rw [mem_insert, ← h.keys e']
    constructor
    · rintro (rfl | he)
      · exact hu.mem
      · exact he
    · exact .inr
  · by_cases hee : e' = e
    · subst hee
      exact .inr (lookup_insert _)
    · have hlook : lookup e' (c.edgeCounts.insert e (t.count e)) =
          lookup e' c.edgeCounts := lookup_insert_ne hee
      rcases h.edges e' he' with hu' | hk'
      · exact .inl (hlook.trans hu')
      · exact .inr (hlook.trans hk')

theorem mem_unknownEdges : e ∈ c.unknownEdges ↔ c.Unknown e := by
  unfold unknownEdges
  rw [Finset.mem_filter, mem_toFinset]
  exact ⟨fun h => h.2, fun hu => ⟨mem_keys.mp hu.mem, hu⟩⟩

/-- Determining an edge leaves one unknown edge less. -/
theorem card_unknownEdges_insert {v : Nat} (hu : c.Unknown e) (hv : v ≠ uintMax) :
    ({ c with edgeCounts := c.edgeCounts.insert e v } : BlockAndEdgeCounts).unknownEdges.card + 1 =
      c.unknownEdges.card := by
  have herase : ({ c with edgeCounts := c.edgeCounts.insert e v } :
      BlockAndEdgeCounts).unknownEdges = c.unknownEdges.erase e := by
    ext e'
    rw [Finset.mem_erase, mem_unknownEdges, mem_unknownEdges]
    unfold Unknown
    by_cases hee : e' = e
    · subst hee
      simp [hv]
    · simp [hee]
  have hin := mem_unknownEdges.mpr hu
  rw [herase, Finset.card_erase_of_mem hin]
  exact Nat.sub_add_cancel (Finset.card_pos.mpr ⟨e, hin⟩)

/-- Determining an edge is progress. -/
theorem Sound.determineEdge (h : Sound t c) (hws : ws ⊆ allBlocks fn) {edge : BBId → EdgeId}
    {info : KnownInfo} {o : BBId} (ho : o ∈ allBlocks fn) (hany : info.anUnknown = some o)
    (hu : c.Unknown (edge o)) (hsum : info.sumOfUnknown = t.count (edge o))
    (hlt : t.count (edge o) < uintMax) :
    ∃ c' ws', c.determineEdge ws edge info = some (c', ws') ∧ Progress t c ws c' ws' := by
  have hlook : c.edgeCounts.lookup (edge o) = some uintMax := hu
  have hne : t.count (edge o) ≠ uintMax := Nat.ne_of_lt hlt
  refine ⟨{ c with edgeCounts := c.edgeCounts.insert (edge o) (t.count (edge o)) },
    Insert.insert o ws, ?_, h.insert hu, Finset.insert_subset ho hws, ?_⟩
  · simp [BlockAndEdgeCounts.determineEdge, hany, hlook, hsum, check, hne]
  · have hcard := card_unknownEdges_insert hu hne
    have hins := Finset.card_insert_le o ws
    unfold weight
    omega

/-- What both halves of a round do with the loop over one side of a block. -/
theorem Sound.side (h : Sound t c) (hws : ws ⊆ allBlocks fn) (hb : b ∈ allBlocks fn)
    {e : BBId → EdgeId} {l : List BBId} {f : KnownInfo → BBId → Option KnownInfo}
    (hf : ∀ o ∈ l, ∀ info, f info o = c.proc1Edge (e o) o (t.countOf b) info)
    (hl : ∀ o ∈ l, o ∈ allBlocks fn ∧ fn.IsEdge (e o))
    (hsum : l = [] ∨ (l.map fun o => t.count (e o)).sum = t.countOf b) :
    ∃ info c' ws', l.foldlM f ⟨0, 0, t.countOf b, none⟩ = some info ∧
      (if info.numUnknown = 1 then c.determineEdge ws e info else pure (c, ws)) =
        some (c', ws') ∧ Progress t c ws c' ws' := by
  rcases hsum with rfl | hsum
  · exact ⟨_, c, ws, rfl, rfl, .refl h hws⟩
  · obtain ⟨info, hrun, hone⟩ := proc1Edge_loop (t := t.count) hf (t.countOf_lt hb)
      (fun o ho => h.edges _ (hl o ho).2) hsum
    by_cases hnum : info.numUnknown = 1
    · obtain ⟨o, ho, hany, hu, hval⟩ := hone hnum
      have hle : t.count (e o) ≤ t.countOf b :=
        hsum ▸ single_le_sum (fun _ _ => Nat.zero_le _) _ (mem_map.mpr ⟨o, ho, rfl⟩)
      obtain ⟨c', ws', hdet, hprog⟩ := h.determineEdge hws (hl o ho).1 hany hu hval
        (Nat.lt_of_le_of_lt hle (t.countOf_lt hb))
      exact ⟨info, c', ws', hrun, by rw [if_pos hnum]; exact hdet, hprog⟩
    · exact ⟨info, c, ws, hrun, by rw [if_neg hnum]; rfl, .refl h hws⟩

/-- Writing the count of a pseudo-block with its true count. -/
theorem Sound.setSpecial (h : Sound t c) (s : SpecialId) :
    Sound t { c with specialBlockCounts :=
      Function.update c.specialBlockCounts s (fn.specialCount t.count s, false) } := by
  refine { h with special := fun s' => ?_ }
  by_cases hs : s' = s
  · subst hs
    simp
  · simpa [Function.update_of_ne hs] using h.special s'

/-- The sum over the edges to an exit, unless one of them is unknown. -/
theorem sumPredEdges_eq {s : SpecialId} : ∀ (l : List BBId) (sum : Nat),
    (∀ o ∈ l, c.Agrees t.count ⟨o, .special s⟩) →
    sum + (l.map fun o => t.count ⟨o, .special s⟩).sum < uintMax →
    sumPredEdges c s l sum = some none ∨
      sumPredEdges c s l sum =
        some (some (sum + (l.map fun o => t.count ⟨o, .special s⟩).sum)) := by
  intro l
  induction l with
  | nil => intro sum _ _; exact .inr rfl
  | cons o l ih =>
    intro sum hag hlt
    simp only [map_cons, sum_cons] at hlt ⊢
    rcases hag o (mem_cons_self ..) with hu | hk
    · have hlook : c.edgeCounts.lookup ⟨o, .special s⟩ = some uintMax := hu
      exact .inl (by simp [sumPredEdges, hlook])
    · have hne : t.count ⟨o, .special s⟩ ≠ uintMax := by omega
      have hstep : sumPredEdges c s (o :: l) sum =
          sumPredEdges c s l (sum + t.count ⟨o, .special s⟩) := by
        have hmod : (sum + t.count ⟨o, .special s⟩) % 2 ^ 32 = sum + t.count ⟨o, .special s⟩ :=
          Nat.mod_eq_of_lt (by unfold uintMax at hlt; omega)
        simp only [sumPredEdges, hk, run_do, if_neg hne, hmod]
      rw [hstep, ← Nat.add_assoc]
      exact ih _ (fun o' ho' => hag o' (mem_cons_of_mem _ ho')) (by omega)

/-- Updating the count of a pseudo-block. -/
theorem Sound.tryToUpdateSpecialBlockCount (h : Sound t c) {s : SpecialId}
    (hs : (c.specialBlockCounts s).1 = uintMax) :
    ∃ c', c.tryToUpdateSpecialBlockCount s = some c' ∧ Sound t c' ∧
      c'.edgeCounts = c.edgeCounts := by
  have hflag := (h.special s).1
  have hexit : Cfg.IsExit s → ∃ c', c.tryToUpdateExitBlockCount s = some c' ∧ Sound t c' ∧
      c'.edgeCounts = c.edgeCounts := by
    intro he
    have hcount : fn.specialCount t.count s =
        ((fn.exitPreds s).map fun o => t.count ⟨o, .special s⟩).sum := by
      rcases he with rfl | rfl <;> rfl
    have hag : ∀ o ∈ fn.exitPreds s, c.Agrees t.count ⟨o, .special s⟩ := by
      intro o ho
      obtain ⟨n, bb, hbb, rfl, hmem⟩ := mem_exitPreds.mp ho
      exact h.edges _ (.inr ⟨n, bb, hbb, rfl, hmem⟩)
    have hlt := t.special_lt s
    rcases sumPredEdges_eq (fn.exitPreds s) 0 hag (by omega) with hsum | hsum
    · refine ⟨c, ?_, h, rfl⟩
      simp [BlockAndEdgeCounts.tryToUpdateExitBlockCount, hs, check, h.exits_eq s he, hsum]
    · rw [Nat.zero_add, ← hcount] at hsum
      refine ⟨_, ?_, h.setSpecial s, rfl⟩
      simp [BlockAndEdgeCounts.tryToUpdateExitBlockCount, hs, check, h.exits_eq s he, hsum, hflag]
  cases s with
  | dummyEntry =>
    rcases h.edges _ (.inl rfl) with hu | hk
    · have hlook : c.edgeCounts.lookup ⟨.special .dummyEntry, .reg fn.entryBB⟩ = some uintMax := hu
      refine ⟨c, ?_, h, rfl⟩
      simp [BlockAndEdgeCounts.tryToUpdateSpecialBlockCount, tryToUpdateEntryBlockCount, hs, check,
        h.entry_eq, hlook]
    · have hne : t.count ⟨.special .dummyEntry, .reg fn.entryBB⟩ ≠ uintMax :=
        Nat.ne_of_lt (t.special_lt .dummyEntry)
      refine ⟨_, ?_, h.setSpecial .dummyEntry, rfl⟩
      simp [BlockAndEdgeCounts.tryToUpdateSpecialBlockCount, tryToUpdateEntryBlockCount, hs, check,
        h.entry_eq, hk, hne, hflag, Cfg.specialCount]
  | interProcBranchExit => exact hexit (.inl rfl)
  | xExit => exact hexit (.inr rfl)

/-- The half of a round over the successors. -/
theorem Sound.dueToSuccs (h : Sound t c) (hfn : fn.Mirrored) (hws : ws ⊆ allBlocks fn)
    (hb : b ∈ allBlocks fn) :
    ∃ c' ws', c.tryToUpdateExactEdgeCounts1NodeDueToSuccs ws b = some (c', ws') ∧
      Progress t c ws c' ws' := by
  obtain ⟨l, hl, hmem, hsum⟩ := h.succsOf hfn hb
  rcases h.blockCountFor hb with hcount | hcount
  · refine ⟨c, ws, ?_, .refl h hws⟩
    simp [tryToUpdateExactEdgeCounts1NodeDueToSuccs, getKnownSuccsInfo, hcount]
  · obtain ⟨info, c', ws', hrun, hdet, hprog⟩ := h.side hws hb
      (e := fun o => ⟨b, o⟩) (f := fun info o => do
        check (o ≠ .unanalyzable)
        c.proc1SuccEdge b o (t.countOf b) info)
      (fun o ho info => by
        rw [check_pos (hmem o ho).2.1]
        rfl)
      (fun o ho => ⟨(hmem o ho).1, (hmem o ho).2.2⟩) hsum
    refine ⟨c', ws', ?_, hprog⟩
    simp only [tryToUpdateExactEdgeCounts1NodeDueToSuccs, getKnownSuccsInfo, hcount, hl,
      run_do] at hrun ⊢
    rw [hrun]
    exact hdet

/-- The half of a round over the predecessors. -/
theorem Sound.dueToPreds (h : Sound t c) (hfn : fn.Mirrored) (hws : ws ⊆ allBlocks fn)
    (hb : b ∈ allBlocks fn) :
    ∃ c' ws', c.tryToUpdateExactEdgeCounts1NodeDueToPreds ws b = some (c', ws') ∧
      Progress t c ws c' ws' := by
  obtain ⟨l, hl, hmem, hsum⟩ := h.predsOf hfn hb
  rcases h.blockCountFor hb with hcount | hcount
  · refine ⟨c, ws, ?_, .refl h hws⟩
    simp [tryToUpdateExactEdgeCounts1NodeDueToPreds, getKnownPredsInfo, hcount]
  · obtain ⟨info, c', ws', hrun, hdet, hprog⟩ := h.side hws hb
      (e := fun o => ⟨o, b⟩) (f := fun info o => c.proc1PredEdge b o (t.countOf b) info)
      (fun o ho info => rfl) hmem hsum
    refine ⟨c', ws', ?_, hprog⟩
    simp only [tryToUpdateExactEdgeCounts1NodeDueToPreds, getKnownPredsInfo, hcount, hl, run_do]
    rw [hrun]
    exact hdet

/-- **One round.** Whatever block of the working set is handed out, processing it fails no
assertion, keeps the counts sound, and lowers the weight. -/
theorem Sound.node (h : Sound t c) (hfn : fn.Mirrored) (hws : ws ⊆ allBlocks fn) (hb : b ∈ ws) :
    ∃ c' ws', c.tryToUpdateExactInfo1Node (ws.erase b) b = some (c', ws') ∧ Sound t c' ∧
      ws' ⊆ allBlocks fn ∧ c'.weight ws' < c.weight ws := by
  have hball := hws hb
  obtain ⟨c₁, hc₁, h₁, hedges⟩ : ∃ c₁, c.tryToUpdateBlockCount1Node b = some c₁ ∧ Sound t c₁ ∧
      c₁.edgeCounts = c.edgeCounts := by
    rcases mem_allBlocks.mp hball with ⟨s, rfl⟩ | ⟨n, -, rfl⟩
    · by_cases hs : (c.specialBlockCounts s).1 = uintMax
      · obtain ⟨c₁, hc₁, h₁⟩ := h.tryToUpdateSpecialBlockCount hs
        exact ⟨c₁, (if_pos hs).trans hc₁, h₁⟩
      · exact ⟨c, if_neg hs, h, rfl⟩
    · exact ⟨c, rfl, h, rfl⟩
  obtain ⟨c₂, ws₂, hc₂, h₂⟩ :=
    h₁.dueToSuccs hfn ((Finset.erase_subset b ws).trans hws) hball
  obtain ⟨c₃, ws₃, hc₃, h₃⟩ := h₂.sound.dueToPreds hfn h₂.blocks hball
  refine ⟨c₃, ws₃, ?_, h₃.sound, h₃.blocks, ?_⟩
  · simp [tryToUpdateExactInfo1Node, hc₁, hc₂, hc₃]
  · have hunknown : c₁.unknownEdges = c.unknownEdges := by
      ext e
      rw [mem_unknownEdges, mem_unknownEdges, Unknown, Unknown, hedges]
    have hw₁ : c₁.weight (ws.erase b) < c.weight ws := by
      unfold weight
      rw [hunknown]
      exact Nat.add_lt_add_left (Finset.card_erase_lt_of_mem hb) _
    exact Nat.lt_of_le_of_lt (h₃.weight_le.trans h₂.weight_le) hw₁

end Round

end Kerninst
