import Kerninst.Function.EdgeCountsSound

/-!
# Runs of the edge-count reconstruction

The rest of `setEdgeCounts` around its rounds: the initialization puts every edge into
the dictionary as unknown (`initEdges_sound`), the loop over the working set can be run to
its end from anywhere and in any order (`Sound.runWorklist`), and the part after the loop only
writes what was still unknown (`finishEdges_keeps`). Together: whatever is not marked as
fudged is true.
-/

namespace Kerninst

open BlockAndEdgeCounts Relation List AList

variable {fn : Cfg}

/-! ## Initialization -/

/-- The counts while edges are being entered: `done` are the edges entered so far, all
unknown, and `preds` the predecessors of the exits found so far. -/
structure Initializing (fn : Cfg) (blockCount : Nat → Nat) (done : EdgeId → Prop)
    (preds : SpecialId → List BBId) (c : BlockAndEdgeCounts) : Prop where
  fn_eq : c.fn = fn
  reg_eq : c.regBlockCounts = blockCount
  entry_eq : c.succsOfEntryBlock = [.reg fn.entryBB]
  preds_eq : ∀ s, c.predsOfExitBlocks s = preds s
  special_eq : ∀ s, c.specialBlockCounts s = (uintMax, false)
  keys : ∀ e, e ∈ c.edgeCounts ↔ done e
  unknown : ∀ e, done e → c.Unknown e

section Init

variable {blockCount : Nat → Nat} {done done' : EdgeId → Prop}
  {preds preds' : SpecialId → List BBId}
  {c : BlockAndEdgeCounts}

section Filling

variable (h : Initializing fn blockCount done preds c)
include h

theorem Initializing.congr
    (hdone : ∀ e, done e ↔ done' e) (hpreds : ∀ s, preds s = preds' s) :
    Initializing fn blockCount done' preds' c :=
  { h with
    preds_eq := fun s => (h.preds_eq s).trans (hpreds s)
    keys := fun e => (h.keys e).trans (hdone e)
    unknown := fun e he => h.unknown e ((hdone e).mpr he) }

/-- Entering one edge. -/
theorem Initializing.insert (e : EdgeId) :
    Initializing fn blockCount (fun e' => done e' ∨ e' = e) preds
      { c with edgeCounts := c.edgeCounts.insert e uintMax } := by
  refine { h with keys := fun e' => ?_, unknown := fun e' he' => ?_ }
  · rw [mem_insert, h.keys e', or_comm]
  · by_cases hee : e' = e
    · subst hee
      exact lookup_insert _
    · exact (lookup_insert_ne hee).trans (h.unknown e' (he'.resolve_right hee))

/-- One successor of one block. -/
theorem Initializing.initEdge (hfn : fn.Mirrored) {n : Nat} {bb : BasicBlock}
    (hbb : fn.getBasicBlockFromId n = some bb) {x : BBId} (hx : x ∈ bb.succs)
    (hnew : ¬ done ⟨.reg n, x⟩) :
    ∃ c', c.initEdge n x = some c' ∧
      Initializing fn blockCount (fun e => done e ∨ e = ⟨.reg n, x⟩)
        (fun s => preds s ++ if x = .special s then [.reg n] else []) c' := by
  obtain ⟨c₁, hc₁, h₁⟩ : ∃ c₁, c.initSucc n x = some c₁ ∧ Initializing fn blockCount done
      (fun s => preds s ++ if x = .special s then [.reg n] else []) c₁ := by
    rcases hfn.succs_valid n bb hbb x hx with ⟨s, hs, rfl⟩ | ⟨m, hm, rfl⟩
    · refine ⟨c.addPredOfExit s (.reg n), ?_, { h with preds_eq := fun s' => ?_ }⟩
      · rcases hs with rfl | rfl <;> rfl
      · by_cases hss : s' = s
        · subst hss
          simp [addPredOfExit, h.preds_eq]
        · have hne : BBId.special s ≠ BBId.special s' := fun he => hss (BBId.special.inj he).symm
          simp [addPredOfExit, Function.update_of_ne hss, h.preds_eq, hne]
    · obtain ⟨cc, hcc⟩ := Cfg.getBasicBlockFromId_eq_some hm
      have hpred := (hfn.mem_preds_iff hbb hcc).mpr hx
      exact ⟨c, by simp [initSucc, h.fn_eq, hcc, hpred, check],
        h.congr (fun _ => Iff.rfl) fun s => by simp⟩
  have hnot : ⟨.reg n, x⟩ ∉ c₁.edgeCounts := fun hin => hnew ((h₁.keys _).mp hin)
  exact ⟨_, by simp [BlockAndEdgeCounts.initEdge, hc₁, check, hnot], h₁.insert _⟩

/-- All successors of one block. -/
theorem Initializing.initBlock (hfn : fn.Mirrored)
    {n : Nat} {bb : BasicBlock} (hbb : fn.getBasicBlockFromId n = some bb)
    (hnew : ∀ x, ¬ done ⟨.reg n, x⟩) :
    ∃ c', c.initBlock n = some c' ∧
      Initializing fn blockCount (fun e => done e ∨ e.fromBbid = .reg n ∧ e.toBbid ∈ bb.succs)
        (fun s => preds s ++ if BBId.special s ∈ bb.succs then [.reg n] else []) c' := by
  obtain ⟨c', hrun, hinv⟩ := foldlM_total
    (I := fun pre c => Initializing fn blockCount
      (fun e => done e ∨ e.fromBbid = .reg n ∧ e.toBbid ∈ pre)
      (fun s => preds s ++ if BBId.special s ∈ pre then [.reg n] else []) c)
    bb.succs (f := fun c x => c.initEdge n x) (s := c)
    (h.congr (by simp) (by simp))
    (by
      intro pre x post c₁ hl h₁
      -- the successors have no duplicates, so an edge is new and an exit is noted once
      have hnodup := hfn.succs_nodup n bb hbb
      rw [hl, nodup_append] at hnodup
      have hnot : x ∉ pre := fun hin =>
        hnodup.2.2 x hin x (mem_cons_self ..) rfl
      obtain ⟨c₂, hc₂, h₂⟩ := h₁.initEdge hfn hbb (x := x) (by rw [hl]; simp)
        (not_or.mpr ⟨hnew x, fun h => hnot h.2⟩)
      refine ⟨c₂, hc₂, h₂.congr (fun e => ?_) (fun s => ?_)⟩
      · obtain ⟨a, b⟩ := e
        simp only [mem_append, mem_singleton, EdgeId.mk.injEq]
        rw [or_assoc, ← and_or_left]
      · by_cases hx : x = .special s
        · subst hx
          simp [hnot]
        · have hx' : ¬BBId.special s = x := fun he => hx he.symm
          simp [hx, hx'])
  refine ⟨c', ?_, hinv⟩
  simp only [BlockAndEdgeCounts.initBlock, h.fn_eq, hbb, run_do]
  exact hrun

end Filling

end Init

theorem exitPreds_nodup (s : SpecialId) : (fn.exitPreds s).Nodup := by
  refine Nodup.map ?_ (nodup_range.filter _)
  intro a b hab
  exact BBId.reg.inj hab

/-- **Initialization** succeeds, with every edge of the graph unknown. -/
theorem initEdges_sound (hfn : fn.Mirrored) (t : Flow fn) :
    ∃ c, initEdges fn t.blockCount = some c ∧ Sound t c := by
  let edge₀ : EdgeId := ⟨.special .dummyEntry, .reg fn.entryBB⟩
  obtain ⟨c, hrun, h⟩ := foldlM_total
    (I := fun pre c => Initializing fn t.blockCount
      (fun e => e = edge₀ ∨ ∃ n ∈ pre, ∃ bb, fn.getBasicBlockFromId n = some bb ∧
        e.fromBbid = .reg n ∧ e.toBbid ∈ bb.succs)
      (fun s => (pre.filter (fn.isExitPred s)).map .reg) c)
    (range fn.numBBs) (f := initBlock)
    (s := {
      fn := fn
      regBlockCounts := t.blockCount
      succsOfEntryBlock := [.reg fn.entryBB]
      predsOfExitBlocks := fun _ => []
      specialBlockCounts := fun _ => (uintMax, false)
      edgeCounts := (∅ : EdgeDict).insert edge₀ uintMax
      numFudgedEdges := uintMax })
    ⟨rfl, rfl, rfl, fun _ => rfl, fun _ => rfl, fun e => by
      rw [mem_insert]; simp, fun e he => by
      obtain rfl : e = edge₀ := by simpa using he
      exact lookup_insert _⟩
    (by
      intro pre n post c₁ hl h₁
      have hn : n < fn.numBBs := mem_range.mp (by rw [hl]; simp)
      obtain ⟨bb, hbb⟩ := Cfg.getBasicBlockFromId_eq_some hn
      have hnot : n ∉ pre := fun hin => by
        have hnodup := nodup_range (n := fn.numBBs)
        rw [hl, nodup_append] at hnodup
        exact hnodup.2.2 n hin n (mem_cons_self ..) rfl
      have hnew : ∀ x, ¬ (⟨.reg n, x⟩ = edge₀ ∨ ∃ m ∈ pre, ∃ bb,
          fn.getBasicBlockFromId m = some bb ∧ BBId.reg n = .reg m ∧ x ∈ bb.succs) := by
        rintro x (h | ⟨m, hm, -, -, h, -⟩)
        · have hfrom : BBId.reg n = .special .dummyEntry := congrArg EdgeId.fromBbid h
          cases hfrom
        · exact hnot (BBId.reg.inj h ▸ hm)
      obtain ⟨c₂, hc₂, h₂⟩ := h₁.initBlock hfn hbb hnew
      refine ⟨c₂, hc₂, h₂.congr (fun e => ?_) (fun s => ?_)⟩
      · rw [or_assoc]
        refine or_congr_right ⟨?_, ?_⟩
        · rintro (⟨m, hm, hrest⟩ | hrest)
          · exact ⟨m, mem_append_left _ hm, hrest⟩
          · exact ⟨n, mem_append_right _ (mem_singleton_self n), bb, hbb, hrest⟩
        · rintro ⟨m, hm, cc, hcc, hrest⟩
          rcases mem_append.mp hm with hm | hm
          · exact .inl ⟨m, hm, cc, hcc, hrest⟩
          · obtain rfl := mem_singleton.mp hm
            rw [hbb] at hcc
            cases hcc
            exact .inr hrest
      · by_cases hs : BBId.special s ∈ bb.succs <;> simp [Cfg.isExitPred, hbb, hs])
  have hpreds : ∀ s, c.predsOfExitBlocks s = fn.exitPreds s := h.preds_eq
  have hedge : ∀ e, (e = edge₀ ∨ ∃ n ∈ range fn.numBBs, ∃ bb,
      fn.getBasicBlockFromId n = some bb ∧ e.fromBbid = .reg n ∧ e.toBbid ∈ bb.succs) ↔
      fn.IsEdge e := by
    intro e
    refine or_congr_right ⟨?_, ?_⟩
    · rintro ⟨n, -, hrest⟩
      exact ⟨n, hrest⟩
    · rintro ⟨n, bb, hbb, hrest⟩
      exact ⟨n, mem_range.mpr (Cfg.lt_of_getBasicBlockFromId hbb), bb, hbb, hrest⟩
  refine ⟨c, ?_, h.fn_eq, h.reg_eq, h.entry_eq, fun s _ => hpreds s,
    fun e => (h.keys e).trans (hedge e), fun e he => .inl (h.unknown e ((hedge e).mpr he)),
    fun s => by rw [h.special_eq s]; exact ⟨rfl, .inl rfl⟩⟩
  simp only [initEdges, Option.bind_eq_bind]
  rw [hrun]
  simp [hpreds, check, exitPreds_nodup]

/-! ## The loop over the working set -/

section Loop

variable {t : Flow fn} {c c' : BlockAndEdgeCounts} {ws ws' : Finset BBId}

/-- **Any run** of rounds, in any order, keeps the counts sound. -/
theorem Sound.run (h : Sound t c) (hfn : fn.Mirrored) (hws : ws ⊆ allBlocks fn)
    (hrun : ReflTransGen WorklistStep (c, ws) (c', ws')) : Sound t c' ∧ ws' ⊆ allBlocks fn := by
  have hgen : ∀ p q, ReflTransGen WorklistStep p q → Sound t p.1 ∧ p.2 ⊆ allBlocks fn →
      Sound t q.1 ∧ q.2 ⊆ allBlocks fn := by
    intro p q hpq hp
    induction hpq with
    | refl => exact hp
    | tail _ hstep ih =>
      cases hstep with
      | node hb hnode =>
        obtain ⟨c₁, ws₁, hn₁, h₁, hws₁, -⟩ := ih.1.node hfn ih.2 hb
        rw [hnode] at hn₁
        cases hn₁
        exact ⟨h₁, hws₁⟩
  exact hgen _ _ hrun ⟨h, hws⟩

/-- The block that the source's order picks is one of the working set. -/
theorem exists_getAndRemoveAny (hws : ws ⊆ allBlocks fn) (hne : ws.Nonempty) :
    ∃ bbid ∈ ws, getAndRemoveAny fn ws = some bbid := by
  obtain ⟨b, hb⟩ := hne
  have hsome : (getAndRemoveAny fn ws).isSome := by
    rw [getAndRemoveAny, find?_isSome]
    exact ⟨b, mem_toFinset.mp (hws hb), decide_eq_true hb⟩
  obtain ⟨bbid, hfind⟩ := Option.isSome_iff_exists.mp hsome
  have hmem : decide (bbid ∈ ws) = true :=
    find?_some (p := fun bbid => decide (bbid ∈ ws)) hfind
  exact ⟨bbid, of_decide_eq_true hmem, hfind⟩

/-- **The source's order** is one of the orders, and with it the loop ends: every round lowers the
weight. -/
theorem Sound.runWorklist (hfn : fn.Mirrored) : ∀ (w : Nat) {c : BlockAndEdgeCounts}
    {ws : Finset BBId}, Sound t c → ws ⊆ allBlocks fn → c.weight ws ≤ w →
    ∃ c', c.runWorklist (w + 1) ws = some c' ∧ ReflTransGen WorklistStep (c, ws) (c', ∅) := by
  intro w
  induction w with
  | zero =>
    intro c ws _ _ hw
    have hempty : ws = ∅ := Finset.card_eq_zero.mp (by unfold weight at hw; omega)
    exact ⟨c, if_pos hempty, by rw [hempty]⟩
  | succ w ih =>
    intro c ws h hws hw
    rcases ws.eq_empty_or_nonempty with rfl | hne
    · exact ⟨c, rfl, .refl⟩
    · obtain ⟨bbid, hb, hfind⟩ := exists_getAndRemoveAny hws hne
      obtain ⟨c₁, ws₁, hn₁, h₁, hws₁, hlt⟩ := h.node hfn hws hb
      obtain ⟨c', hrun, hrest⟩ := ih h₁ hws₁ (by omega)
      refine ⟨c', ?_, .head (.node hb hn₁) hrest⟩
      rw [BlockAndEdgeCounts.runWorklist, if_neg hne.ne_empty, h.fn_eq, hfind]
      simp only [run_do, hn₁]
      exact hrun

end Loop

/-! ## After the loop -/

section Finish

variable {t : Flow fn} {c c' : BlockAndEdgeCounts}

/-- The edges that need fudging are the unknown ones. -/
theorem mem_calcEdgesThatNeedFudging {l : List EdgeId} (h : c.calcEdgesThatNeedFudging = some l)
    (e : EdgeId) : e ∈ l ↔ c.Unknown e := by
  have hloop : ∀ (keys init l : List EdgeId), keys.foldlM (fun result id => do
        c.checkEdge id
        let count ← c.edgeCounts.lookup id
        pure (if count = uintMax then result ++ [id] else result)) init = some l →
      l = init ++ keys.filter fun e => c.Unknown e := by
    intro keys
    induction keys with
    | nil =>
      intro init l hrun
      cases hrun
      simp
    | cons k keys ih =>
      intro init l hrun
      obtain ⟨init', hk, hrest⟩ := exists_of_bind hrun
      obtain ⟨_, -, hk⟩ := exists_of_bind hk
      obtain ⟨count, hcount, hk⟩ := exists_of_bind hk
      cases hk
      rw [ih _ _ hrest]
      by_cases hu : count = uintMax
      · have : c.Unknown k := by rw [Unknown, hcount, hu]
        simp [hu, this]
      · have : ¬c.Unknown k := fun hk => hu (Option.mem_unique hcount hk)
        simp [hu, this]
  rw [hloop _ _ _ h, nil_append, mem_filter, decide_eq_true_eq]
  exact ⟨fun he => he.2, fun hu => ⟨mem_keys.mp hu.mem, hu⟩⟩

/-- Fudging writes the unknown edges only, and no block count. -/
theorem fudgeRemainingEdges_keeps (h : c.fudgeRemainingEdges = some c') :
    ∃ l, c.calcEdgesThatNeedFudging = some l ∧
      c'.specialBlockCounts = c.specialBlockCounts ∧
      ∀ e ∉ l, c'.edgeCounts.lookup e = c.edgeCounts.lookup e := by
  obtain ⟨l, hl, h⟩ := exists_of_bind h
  obtain ⟨fudged, -, h⟩ := exists_of_bind h
  obtain ⟨_, -, h⟩ := exists_of_bind h
  refine ⟨l, hl, ?_⟩
  refine foldlM_keeps (I := fun c' => c'.specialBlockCounts = c.specialBlockCounts ∧
    ∀ e ∉ l, c'.edgeCounts.lookup e = c.edgeCounts.lookup e) l ⟨rfl, fun _ _ => rfl⟩ ?_ h
  intro e he c₁ c₂ hinv hround
  obtain ⟨_, -, hround⟩ := exists_of_bind hround
  obtain ⟨_, -, hround⟩ := exists_of_bind hround
  obtain ⟨count, -, hround⟩ := exists_of_bind hround
  cases hround
  refine ⟨hinv.1, fun e' he' => ?_⟩
  have hne : e' ≠ e := fun hee => he' (hee ▸ he)
  exact (lookup_insert_ne hne).trans (hinv.2 e' he')

theorem applyFudged_eq {s : SpecialId} {n : Nat × Bool} (h : c.applyFudged s n = some c') :
    c'.edgeCounts = c.edgeCounts ∧
      ∀ s', c'.specialBlockCounts s' =
        if s' = s ∧ n.2 = true then n else c.specialBlockCounts s' := by
  unfold applyFudged at h
  split at h
  · rename_i hflag
    obtain ⟨_, -, h⟩ := exists_of_bind h
    cases h
    refine ⟨rfl, fun s' => ?_⟩
    by_cases hs : s' = s
    · subst hs
      simp [hflag]
    · simp [hs]
  · rename_i hflag
    cases h
    exact ⟨rfl, fun s' => by simp [hflag]⟩

/-- **After the loop** only unknown edges are written, and a count of a pseudo-block that is
not marked as fudged is one that the loop has determined. -/
theorem finishEdges_keeps (h : c.finishEdges = some c') :
    ∃ l, c.calcEdgesThatNeedFudging = some l ∧
      (∀ e ∉ l, c'.edgeCounts.lookup e = c.edgeCounts.lookup e) ∧
      ∀ s, (c'.specialBlockCounts s).2 = false →
        c'.specialBlockCounts s = c.specialBlockCounts s ∧
          (c.specialBlockCounts s).1 ≠ uintMax := by
  obtain ⟨_, -, h⟩ := exists_of_bind h
  obtain ⟨_, -, h⟩ := exists_of_bind h
  obtain ⟨n₁, hn₁, h⟩ := exists_of_bind h
  obtain ⟨n₂, hn₂, h⟩ := exists_of_bind h
  obtain ⟨n₃, hn₃, h⟩ := exists_of_bind h
  obtain ⟨c₀, hfudge, h⟩ := exists_of_bind h
  obtain ⟨c₁, h₁, h⟩ := exists_of_bind h
  obtain ⟨c₂, h₂, h₃⟩ := exists_of_bind h
  obtain ⟨l, hl, hspecial, hedges⟩ := fudgeRemainingEdges_keeps hfudge
  obtain ⟨he₁, hs₁⟩ := applyFudged_eq h₁
  obtain ⟨he₂, hs₂⟩ := applyFudged_eq h₂
  obtain ⟨he₃, hs₃⟩ := applyFudged_eq h₃
  refine ⟨l, hl, fun e he => ?_, fun s hflag => ?_⟩
  · rw [he₃, he₂, he₁]
    exact hedges e he
  · -- each pseudo-block is written by its own application only
    obtain ⟨n, hn, hval⟩ : ∃ n, c.specialBlockCountOrFudge s = some n ∧
        c'.specialBlockCounts s = if n.2 = true then n else c.specialBlockCounts s := by
      cases s with
      | dummyEntry => exact ⟨n₁, hn₁, by simp [hs₃, hs₂, hs₁, hspecial]⟩
      | interProcBranchExit => exact ⟨n₂, hn₂, by simp [hs₃, hs₂, hs₁, hspecial]⟩
      | xExit => exact ⟨n₃, hn₃, by simp [hs₃, hs₂, hs₁, hspecial]⟩
    by_cases hn2 : n.2 = true
    · rw [hval, if_pos hn2, hn2] at hflag
      exact absurd hflag (by simp)
    · refine ⟨by rw [hval, if_neg hn2], fun hmax => hn2 ?_⟩
      rw [specialBlockCountOrFudge, if_pos hmax] at hn
      obtain ⟨_, -, hn⟩ := exists_of_bind hn
      cases hn
      rfl

end Finish

/-! ## The whole reconstruction -/

/-- What it means that the reconstruction from the block counts of a flow is sound. -/
structure ReconstructionSound (t : Flow fn) (c₀ : BlockAndEdgeCounts) : Prop where
  /-- in any run of the loop, whatever block comes next is processed without tripping an
  assertion, ... -/
  no_assertion : ∀ c ws, ReflTransGen WorklistStep (c₀, allBlocks fn) (c, ws) →
    ∀ bbid ∈ ws, ∃ c' ws', c.tryToUpdateExactInfo1Node (ws.erase bbid) bbid = some (c', ws')
  /-- ... and the loop can be finished; -/
  finishes : ∀ c ws, ReflTransGen WorklistStep (c₀, allBlocks fn) (c, ws) →
    ∃ c', ReflTransGen WorklistStep (c, ws) (c', ∅)
  /-- whatever the loop has determined so far is true; -/
  determined : ∀ c ws, ReflTransGen WorklistStep (c₀, allBlocks fn) (c, ws) →
    (∀ e v, c.edgeCounts.lookup e = some v → v ≠ uintMax → v = t.count e) ∧
    ∀ s, (c.specialBlockCounts s).1 ≠ uintMax →
      (c.specialBlockCounts s).1 = fn.specialCount t.count s
  /-- and so is, once everything is done, whatever was not fudged. -/
  not_fudged : ∀ c post, ReflTransGen WorklistStep (c₀, allBlocks fn) (c, ∅) →
    c.finishEdges = some post →
    ∃ fudgedEdges, c.calcEdgesThatNeedFudging = some fudgedEdges ∧
      (∀ e v, e ∉ fudgedEdges → post.edgeCounts.lookup e = some v → v = t.count e) ∧
      ∀ s, (post.specialBlockCounts s).2 = false →
        (post.specialBlockCounts s).1 = fn.specialCount t.count s

/-- There are enough rounds for the loop to come to its end. Then `setEdgeCounts` is the
initialization, a run of the loop, and what comes after it. -/
theorem exists_run_of_setEdgeCounts (hfn : fn.Mirrored) (t : Flow fn) :
    ∃ fuel c₀ c, initEdges fn t.blockCount = some c₀ ∧
      c₀.runWorklist fuel (allBlocks fn) = some c ∧
      ReflTransGen WorklistStep (c₀, allBlocks fn) (c, ∅) ∧
      setEdgeCounts fuel fn t.blockCount = c.finishEdges := by
  obtain ⟨c₀, hinit, h₀⟩ := initEdges_sound hfn t
  obtain ⟨c, hrun, hsteps⟩ := h₀.runWorklist hfn _ (Finset.Subset.refl _) (Nat.le_refl _)
  refine ⟨c₀.weight (allBlocks fn) + 1, c₀, c, hinit, hrun, hsteps, ?_⟩
  rw [setEdgeCounts, hinit, Option.bind_eq_bind, Option.bind_some, hrun]
  rfl

/-- **Edge counts are sound**, for every graph, every flow through it and every order in
which the working set hands out blocks. -/
theorem setEdgeCounts_sound (hfn : fn.Mirrored) (t : Flow fn) :
    ∃ c₀, initEdges fn t.blockCount = some c₀ ∧ ReconstructionSound t c₀ := by
  obtain ⟨c₀, hinit, h₀⟩ := initEdges_sound hfn t
  have hall : allBlocks fn ⊆ allBlocks fn := Finset.Subset.refl _
  have hedges : ∀ {c : BlockAndEdgeCounts}, Sound t c → ∀ e v,
      c.edgeCounts.lookup e = some v → v ≠ uintMax → v = t.count e := by
    intro c h e v hv hne
    have hmem : e ∈ c.edgeCounts := lookup_isSome.mp (by rw [hv]; rfl)
    rcases h.edges e ((h.keys e).mp hmem) with hu | hk
    · exact absurd (Option.mem_unique hv hu) hne
    · exact Option.mem_unique hv hk
  refine ⟨c₀, hinit, ⟨fun c ws hrun bbid hb => ?_, fun c ws hrun => ?_, fun c ws hrun => ?_,
    fun c post hrun hpost => ?_⟩⟩
  · obtain ⟨h, hws⟩ := h₀.run hfn hall hrun
    obtain ⟨c', ws', hnode, -⟩ := h.node hfn hws hb
    exact ⟨c', ws', hnode⟩
  · obtain ⟨h, hws⟩ := h₀.run hfn hall hrun
    obtain ⟨c', -, hrest⟩ := Sound.runWorklist hfn _ h hws (Nat.le_refl _)
    exact ⟨c', hrest⟩
  · obtain ⟨h, -⟩ := h₀.run hfn hall hrun
    exact ⟨hedges h, fun s hs => (h.special s).2.resolve_left hs⟩
  · obtain ⟨h, -⟩ := h₀.run hfn hall hrun
    obtain ⟨l, hl, hkeep, hspecial⟩ := finishEdges_keeps hpost
    refine ⟨l, hl, fun e v he hv => ?_, fun s hs => ?_⟩
    · rw [hkeep e he] at hv
      refine hedges h e v hv fun hmax => he ?_
      exact (mem_calcEdgesThatNeedFudging hl e).mpr (by rw [Unknown, hv, hmax])
    · obtain ⟨hsame, hne⟩ := hspecial s hs
      rw [hsame]
      exact (h.special s).2.resolve_left hne

/-- A loop of two blocks with an exit from its head. -/
def twoBlockLoop : Cfg where
  blocks := [⟨[.reg 1, .special .xExit], [.reg 1]⟩, ⟨[.reg 0], [.reg 0]⟩]
  entryBB := 0
  entry_lt := by decide

theorem twoBlockLoop_mirrored : twoBlockLoop.Mirrored where
  succs_nodup n bb h := by
    match n with
    | 0 | 1 => cases h; decide
  succs_valid n bb h := by
    match n with
    | 0 =>
      cases h
      intro s hs
      simp only [mem_cons, not_mem_nil, or_false] at hs
      rcases hs with rfl | rfl
      · exact .inr ⟨1, by decide, rfl⟩
      · exact .inl ⟨.xExit, .inr rfl, rfl⟩
    | 1 =>
      cases h
      intro s hs
      obtain rfl := mem_singleton.mp hs
      exact .inr ⟨0, by decide, rfl⟩
  preds_valid n bb h := by
    match n with
    | 0 | 1 =>
      cases h
      intro s hs
      obtain rfl := mem_singleton.mp hs
      exact ⟨_, by decide, rfl⟩
  mirror n bb m cc hn hm := by
    match n, m with
    | 0, 0 | 0, 1 | 1, 0 | 1, 1 => cases hn; cases hm; decide

/-- Two calls, with three iterations in all. -/
def twoBlockFlow : Flow twoBlockLoop where
  count
    | ⟨.special .dummyEntry, .reg 0⟩ => 2
    | ⟨.reg 0, .special .xExit⟩ => 2
    | ⟨.reg 0, .reg 1⟩ => 3
    | ⟨.reg 1, .reg 0⟩ => 3
    | _ => 0
  blockCount n := if n = 0 then 5 else 3
  out_eq n bb h := by
    match n with
    | 0 => cases h; decide
    | 1 => cases h; decide
  in_eq n bb h := by
    match n with
    | 0 => cases h; decide
    | 1 => cases h; decide
  blockCount_lt n _ := by
    split <;> decide
  special_lt s := by
    cases s <;> decide

/-- The hypotheses hold of the two-block loop, whose counts are therefore reconstructed
soundly. -/
theorem setEdgeCounts_sound_twoBlockLoop :
    twoBlockLoop.Mirrored ∧
      ∃ c₀, initEdges twoBlockLoop twoBlockFlow.blockCount = some c₀ ∧
        ReconstructionSound twoBlockFlow c₀ :=
  ⟨twoBlockLoop_mirrored, setEdgeCounts_sound twoBlockLoop_mirrored twoBlockFlow⟩

/-- The two-block loop has such a run. -/
theorem exists_run_of_setEdgeCounts_twoBlockLoop : ∃ fuel c₀ c,
    initEdges twoBlockLoop twoBlockFlow.blockCount = some c₀ ∧
      c₀.runWorklist fuel (allBlocks twoBlockLoop) = some c ∧
      ReflTransGen WorklistStep (c₀, allBlocks twoBlockLoop) (c, ∅) ∧
      setEdgeCounts fuel twoBlockLoop twoBlockFlow.blockCount = c.finishEdges :=
  exists_run_of_setEdgeCounts twoBlockLoop_mirrored twoBlockFlow

end Kerninst
