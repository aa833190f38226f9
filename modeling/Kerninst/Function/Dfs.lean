import Mathlib.Data.List.Perm.Subperm
import Mathlib.Logic.Relation
import Kerninst.Lib.Checked
import Kerninst.Function.Cfg

/-!
# Depth-first numbering of the blocks of a function

`performDFS` numbers the blocks in pre-order and in post-order, and fills four vectors with the
numbers: from numbers to blocks and back. An entry that is not written yet is `none` here, and
`(bbid_t)-1` or `(uint16_t)-1` in the source. On the way it asserts of each block that its
successors have it among their predecessors.

What a call does is summed up in `Cfg.Extends`: blocks stay visited, post-order numbers stay as
they are and are inverted by the other vector, and every block that is visited by the call is done
with (`Cfg.Done`) when it returns. So when all blocks can be reached from the entry
block, all are numbered (`Cfg.performDFS_numbers`) and the predecessor lists are complete
(`Cfg.performDFS_mirrors`).
-/

namespace Kerninst

open List

/-- The vectors and counters of `performDFS`. -/
structure DfsTables where
  preOrderNum2BlockId : List (Option Nat)
  postOrderNum2BlockId : List (Option Nat)
  blockId2PreOrderNum : List (Option Nat)
  blockId2PostOrderNum : List (Option Nat)
  currPreOrderNum : Nat
  currPostOrderNum : Nat

/-- Number a block, in both directions; neither entry may be written yet. -/
def assignNum (num2Id id2Num : List (Option Nat)) (num id : Nat) :
    Option (List (Option Nat) × List (Option Nat)) := do
  check (num2Id[num]? = some none)
  check (id2Num[id]? = some none)
  pure (num2Id.set num (some id), id2Num.set id (some num))

namespace DfsTables

def init (n : Nat) : DfsTables where
  preOrderNum2BlockId := List.replicate n none
  postOrderNum2BlockId := List.replicate n none
  blockId2PreOrderNum := List.replicate n none
  blockId2PostOrderNum := List.replicate n none
  currPreOrderNum := 0
  currPostOrderNum := 0

/-- What is done on entering a block. -/
def enter (t : DfsTables) (bbId : Nat) : Option DfsTables := do
  let v ← assignNum t.preOrderNum2BlockId t.blockId2PreOrderNum t.currPreOrderNum bbId
  pure { t with
    preOrderNum2BlockId := v.1
    blockId2PreOrderNum := v.2
    currPreOrderNum := t.currPreOrderNum + 1 }

/-- What is done on leaving a block. -/
def leave (t : DfsTables) (bbId : Nat) : Option DfsTables := do
  let v ← assignNum t.postOrderNum2BlockId t.blockId2PostOrderNum t.currPostOrderNum bbId
  pure { t with
    postOrderNum2BlockId := v.1
    blockId2PostOrderNum := v.2
    currPostOrderNum := t.currPostOrderNum + 1 }

def Visited (t : DfsTables) (bbId : Nat) : Prop :=
  ∃ num, t.blockId2PreOrderNum[bbId]? = some (some num)

def HasPostNum (t : DfsTables) (bbId num : Nat) : Prop :=
  t.blockId2PostOrderNum[bbId]? = some (some num)

/-- The post-order vectors are inverse to each other, as far as they are written. -/
def Inverse (t : DfsTables) : Prop := ∀ bbId num, t.HasPostNum bbId num →
  num < t.currPostOrderNum ∧ t.postOrderNum2BlockId[num]? = some (some bbId)

end DfsTables

namespace Cfg

/-- The assertion on a successor of a block; the pseudo-blocks have no predecessors. -/
def hasAsAPredecessor (fn : Cfg) (bbId : Nat) : BBId → Bool
  | .reg m => (fn.getBasicBlockFromId m).any fun bb => decide (BBId.reg bbId ∈ bb.preds)
  | _ => true

/-- One successor: visit it unless it is a pseudo-block or already visited. -/
def visitSucc (visit : Nat → DfsTables → Option DfsTables) (t : DfsTables) :
    BBId → Option DfsTables
  | .reg m => do
    let num ← t.blockId2PreOrderNum[m]?
    if num = none then visit m t else pure t
  | _ => pure t

def performDFS (fn : Cfg) : Nat → Nat → DfsTables → Option DfsTables
  | 0, _, _ => none
  | fuel + 1, bbId, t => do
    let t ← t.enter bbId
    let bb ← fn.getBasicBlockFromId bbId
    check (∀ s ∈ bb.succs, fn.hasAsAPredecessor bbId s = true)
    let t ← bb.succs.foldlM (visitSucc (fn.performDFS fuel)) t
    t.leave bbId

/-- Control can go from one block to another. -/
def Edge (fn : Cfg) (n m : Nat) : Prop :=
  ∃ bb, fn.getBasicBlockFromId n = some bb ∧ BBId.reg m ∈ bb.succs

/-- Every block can be reached from the entry block. -/
def AllReachable (fn : Cfg) : Prop :=
  ∀ n < fn.numBBs, Relation.ReflTransGen fn.Edge fn.entryBB n

/-! ## Numbering -/

section Numbering

variable {num2Id id2Num : List (Option Nat)} {num id : Nat}
  {v : List (Option Nat) × List (Option Nat)}

theorem assignNum_cases (h : assignNum num2Id id2Num num id = some v) :
    num2Id[num]? = some none ∧ id2Num[id]? = some none ∧
      v = (num2Id.set num (some id), id2Num.set id (some num)) := by
  simp only [assignNum, do_eq_some, check_eq_some] at h
  obtain ⟨-, hnum, -, hid, rfl⟩ := h
  exact ⟨hnum, hid, rfl⟩

/-- An entry of a vector after one was written that had not been. -/
theorem getElem?_set_eq_some {l : List (Option Nat)} {i j : Nat} {a b : Nat}
    (hi : l[i]? = some none) :
    (l.set i (some a))[j]? = some (some b) ↔ (j = i ∧ b = a) ∨ l[j]? = some (some b) := by
  have hlt := (List.getElem?_eq_some_iff.mp hi).1
  rw [List.getElem?_set]
  by_cases hij : i = j
  · subst hij
    rw [if_pos rfl, if_pos hlt, hi]
    simp [eq_comm]
  · simp [hij, Ne.symm hij]

end Numbering

variable {fn : Cfg} {t t' t₁ t₂ t₃ : DfsTables} {bbId m num : Nat}

theorem enter_cases (h : t.enter bbId = some t') : (∀ m, t'.Visited m ↔ m = bbId ∨ t.Visited m) ∧
      t'.postOrderNum2BlockId = t.postOrderNum2BlockId ∧
      t'.blockId2PostOrderNum = t.blockId2PostOrderNum ∧
      t'.currPostOrderNum = t.currPostOrderNum := by
  simp only [DfsTables.enter, do_eq_some] at h
  obtain ⟨v, hv, rfl⟩ := h
  obtain ⟨-, hid, rfl⟩ := assignNum_cases hv
  refine ⟨fun m => ?_, rfl, rfl, rfl⟩
  simp only [DfsTables.Visited, getElem?_set_eq_some hid, exists_or]
  simp

theorem leave_cases (h : t.leave bbId = some t') : (∀ m, t'.Visited m ↔ t.Visited m) ∧
      (∀ m num, t'.HasPostNum m num ↔ (m = bbId ∧ num = t.currPostOrderNum) ∨ t.HasPostNum m num) ∧
      t'.postOrderNum2BlockId.length = t.postOrderNum2BlockId.length ∧
      (t.Inverse → t'.Inverse) := by
  simp only [DfsTables.leave, do_eq_some] at h
  obtain ⟨v, hv, rfl⟩ := h
  obtain ⟨hnum, hid, rfl⟩ := assignNum_cases hv
  have hpost : ∀ m num, DfsTables.HasPostNum { t with
        postOrderNum2BlockId := t.postOrderNum2BlockId.set t.currPostOrderNum (some bbId)
        blockId2PostOrderNum := t.blockId2PostOrderNum.set bbId (some t.currPostOrderNum)
        currPostOrderNum := t.currPostOrderNum + 1 } m num ↔
        (m = bbId ∧ num = t.currPostOrderNum) ∨ t.HasPostNum m num := fun m num =>
    getElem?_set_eq_some hid
  refine ⟨fun _ => Iff.rfl, hpost, length_set .., fun hinv m k hk => ?_⟩
  simp only [getElem?_set_eq_some hnum]
  rcases (hpost m k).mp hk with ⟨rfl, rfl⟩ | hold
  · exact ⟨Nat.lt_succ_self _, .inl ⟨rfl, rfl⟩⟩
  · obtain ⟨hlt, hget⟩ := hinv m k hold
    exact ⟨Nat.lt_succ_of_lt hlt, .inr hget⟩

/-! ## What a call does -/

/-- The block has its numbers, its successors are visited and have it as a predecessor. -/
def Done (fn : Cfg) (t : DfsTables) (n : Nat) : Prop :=
  (∃ num, t.HasPostNum n num) ∧ ∃ bb, fn.getBasicBlockFromId n = some bb ∧
    (∀ s ∈ bb.succs, fn.hasAsAPredecessor n s = true) ∧
    ∀ k, BBId.reg k ∈ bb.succs → t.Visited k

structure Extends (fn : Cfg) (t t' : DfsTables) : Prop where
  visited : ∀ m, t.Visited m → t'.Visited m
  hasPostNum : ∀ m num, t.HasPostNum m num → t'.HasPostNum m num
  inverse : t.Inverse → t'.Inverse
  length : t'.postOrderNum2BlockId.length = t.postOrderNum2BlockId.length
  done : ∀ m, t'.Visited m → t.Visited m ∨ fn.Done t' m

namespace Extends

theorem refl (fn : Cfg) (t : DfsTables) : fn.Extends t t :=
  ⟨fun _ => id, fun _ _ => id, id, rfl, fun _ => .inl⟩

theorem mono_done (h : fn.Extends t₁ t₂) (hdone : fn.Done t₁ m) : fn.Done t₂ m := by
  obtain ⟨⟨num, hnum⟩, bb, hbb, hpred, hsucc⟩ := hdone
  exact ⟨⟨num, h.hasPostNum m num hnum⟩, bb, hbb, hpred, fun k hk => h.visited k (hsucc k hk)⟩

theorem trans (h₁ : fn.Extends t₁ t₂) (h₂ : fn.Extends t₂ t₃) : fn.Extends t₁ t₃ where
  visited m hm := h₂.visited m (h₁.visited m hm)
  hasPostNum m num hm := h₂.hasPostNum m num (h₁.hasPostNum m num hm)
  inverse hinv := h₂.inverse (h₁.inverse hinv)
  length := h₂.length.trans h₁.length
  done m hm := by
    rcases h₂.done m hm with hv | hd
    · exact (h₁.done m hv).imp_right h₂.mono_done
    · exact .inr hd

end Extends

/-- The loop over the successors, given what the calls do. -/
theorem foldlM_visitSucc_extends {visit : Nat → DfsTables → Option DfsTables}
    (hvisit : ∀ m t t', visit m t = some t' → fn.Extends t t' ∧ t'.Visited m) :
    ∀ (succs : List BBId) {t t' : DfsTables}, succs.foldlM (visitSucc visit) t = some t' →
      fn.Extends t t' ∧ ∀ k, BBId.reg k ∈ succs → t'.Visited k := by
  intro succs
  induction succs with
  | nil =>
    intro t t' h
    cases h
    exact ⟨.refl fn t, by simp⟩
  | cons s succs ih =>
    intro t t' h
    obtain ⟨t₁, hs, hrest⟩ := exists_of_bind h
    obtain ⟨hext, hall⟩ := ih hrest
    have hfirst : fn.Extends t t₁ ∧ ∀ k, s = .reg k → t₁.Visited k := by
      cases s with
      | reg m =>
        obtain ⟨num, hnum, hcase⟩ := exists_of_bind hs
        by_cases hnone : num = none
        · rw [if_pos hnone] at hcase
          obtain ⟨hext', hm⟩ := hvisit m t t₁ hcase
          refine ⟨hext', ?_⟩
          rintro k ⟨rfl⟩
          exact hm
        · rw [if_neg hnone] at hcase
          cases hcase
          refine ⟨.refl fn t, ?_⟩
          rintro k ⟨rfl⟩
          obtain ⟨a, rfl⟩ := Option.ne_none_iff_exists'.mp hnone
          exact ⟨a, hnum⟩
      | special s | unanalyzable =>
        cases hs
        exact ⟨.refl fn t, by simp⟩
    refine ⟨hfirst.1.trans hext, fun k hk => ?_⟩
    rcases mem_cons.mp hk with rfl | hk
    · exact hext.visited k (hfirst.2 k rfl)
    · exact hall k hk

theorem performDFS_extends (fuel : Nat) : ∀ (bbId : Nat) (t t' : DfsTables),
    fn.performDFS fuel bbId t = some t' → fn.Extends t t' ∧ t'.Visited bbId := by
  induction fuel with
  | zero =>
    intro bbId t t' h
    cases h
  | succ fuel ih =>
    intro bbId t t' h
    simp only [performDFS, do_eq_some, check_eq_some] at h
    obtain ⟨t₁, henter, bb, hbb, -, hpred, t₂, hloop, hleave⟩ := h
    obtain ⟨hvis₁, hpost2, hid2, hcurr⟩ := enter_cases henter
    obtain ⟨hext, hsucc⟩ := foldlM_visitSucc_extends ih bb.succs hloop
    obtain ⟨hvis', hnum', hlen', hinv'⟩ := leave_cases hleave
    -- entering a block leaves the post-order vectors alone
    have hinv₁ : t.Inverse → t₁.Inverse := by
      intro hinv m num hm
      rw [hpost2, hcurr]
      rw [DfsTables.HasPostNum, hid2] at hm
      exact hinv m num hm
    have hnum₂ : ∀ m num, t.HasPostNum m num → t₂.HasPostNum m num := by
      intro m num hm
      apply hext.hasPostNum
      rwa [DfsTables.HasPostNum, hid2]
    have hself : t'.Visited bbId := (hvis' bbId).mpr (hext.visited _ ((hvis₁ bbId).mpr (.inl rfl)))
    refine ⟨⟨?_, ?_, ?_, ?_, ?_⟩, hself⟩
    · exact fun m hm => (hvis' m).mpr (hext.visited m ((hvis₁ m).mpr (.inr hm)))
    · exact fun m num hm => (hnum' m num).mpr (.inr (hnum₂ m num hm))
    · exact fun hinv => hinv' (hext.inverse (hinv₁ hinv))
    · rw [hlen', hext.length, hpost2]
    · intro m hm
      have hkeep : fn.Done t₂ m → fn.Done t' m := by
        rintro ⟨⟨num, hnum⟩, bb', hbb', hpred', hsucc'⟩
        exact ⟨⟨num, (hnum' m num).mpr (.inr hnum)⟩, bb', hbb', hpred',
          fun k hk => (hvis' k).mpr (hsucc' k hk)⟩
      rcases hext.done m ((hvis' m).mp hm) with hv | hd
      · rcases (hvis₁ m).mp hv with rfl | hold
        · exact .inr ⟨⟨_, (hnum' _ _).mpr (.inl ⟨rfl, rfl⟩)⟩, bb, hbb, hpred,
            fun k hk => (hvis' k).mpr (hsucc k hk)⟩
        · exact .inl hold
      · exact .inr (hkeep hd)

/-! ## A whole run -/

theorem init_not_visited (n m : Nat) : ¬ (DfsTables.init n).Visited m := by
  rintro ⟨num, hnum⟩
  have := eq_of_mem_replicate (mem_of_getElem? hnum)
  cases this

theorem init_inverse (n : Nat) : (DfsTables.init n).Inverse := by
  intro m num hm
  have := eq_of_mem_replicate (mem_of_getElem? hm)
  cases this

/-- All blocks that can be reached are done with in the end. -/
theorem performDFS_done {fuel : Nat}
    (h : fn.performDFS fuel fn.entryBB (.init fn.numBBs) = some t) (hall : fn.AllReachable)
    (hm : m < fn.numBBs) : fn.Done t m := by
  obtain ⟨hext, hentry⟩ := performDFS_extends fuel _ _ _ h
  have hdone : ∀ n, t.Visited n → fn.Done t n := fun n hn =>
    (hext.done n hn).resolve_left (init_not_visited _ n)
  have hvis : ∀ n, Relation.ReflTransGen fn.Edge fn.entryBB n → t.Visited n := by
    intro n hn
    induction hn with
    | refl => exact hentry
    | tail _ hedge ih =>
      obtain ⟨-, bb, hbb, -, hsucc⟩ := hdone _ ih
      obtain ⟨bb', hbb', hmem⟩ := hedge
      obtain rfl : bb = bb' := Option.mem_unique hbb hbb'
      exact hsucc _ hmem
  exact hdone m (hvis m (hall m hm))

/-- **Every block has a post-order number, and the number leads back to the block.** -/
theorem performDFS_numbers {fuel : Nat}
    (h : fn.performDFS fuel fn.entryBB (.init fn.numBBs) = some t) (hall : fn.AllReachable)
    (hm : m < fn.numBBs) :
    ∃ num < fn.numBBs, t.HasPostNum m num ∧ t.postOrderNum2BlockId[num]? = some (some m) := by
  obtain ⟨hext, -⟩ := performDFS_extends fuel _ _ _ h
  obtain ⟨⟨num, hnum⟩, -⟩ := performDFS_done h hall hm
  have hget := (hext.inverse (init_inverse _) m num hnum).2
  have hlt := (List.getElem?_eq_some_iff.mp hget).1
  rw [hext.length, DfsTables.init, List.length_replicate] at hlt
  exact ⟨num, hlt, hnum, hget⟩

/-- **The post-order vector lists every block once.** -/
theorem performDFS_perm {fuel : Nat}
    (h : fn.performDFS fuel fn.entryBB (.init fn.numBBs) = some t) (hall : fn.AllReachable) :
    t.postOrderNum2BlockId.Perm ((range fn.numBBs).map some) := by
  have hsub : (range fn.numBBs).map some ⊆ t.postOrderNum2BlockId := by
    intro _ hmem
    obtain ⟨m, hm, rfl⟩ := mem_map.mp hmem
    obtain ⟨_, -, -, hget⟩ := performDFS_numbers h hall (mem_range.mp hm)
    exact mem_of_getElem? hget
  have hnodup : ((range fn.numBBs).map some).Nodup :=
    Pairwise.map some (fun _ _ hne h => hne (Option.some.inj h)) nodup_range
  refine ((subperm_of_subset hnodup hsub).perm_of_length_le ?_).symm
  simp [(performDFS_extends fuel _ _ _ h).1.length, DfsTables.init]

/-- Two ways from block 0 to block 3, and back. -/
def diamond : Cfg where
  blocks := [⟨[.reg 1, .reg 2], [.reg 3]⟩, ⟨[.reg 3], [.reg 0]⟩, ⟨[.reg 3], [.reg 0]⟩,
    ⟨[.reg 0], [.reg 1, .reg 2]⟩]
  entryBB := 0
  entry_lt := by decide

theorem allReachable_diamond : diamond.AllReachable := by
  have h₁ : diamond.Edge 0 1 := ⟨_, rfl, by decide⟩
  have h₂ : diamond.Edge 0 2 := ⟨_, rfl, by decide⟩
  have h₃ : diamond.Edge 1 3 := ⟨_, rfl, by decide⟩
  intro n hn
  change n < 4 at hn
  obtain rfl | rfl | rfl | rfl : n = 0 ∨ n = 1 ∨ n = 2 ∨ n = 3 := by omega
  · exact .refl
  · exact .single h₁
  · exact .single h₂
  · exact .tail (.single h₁) h₃

/-- Block 3 is reached through block 1, and is done with first. -/
theorem performDFS_perm_diamond : ∃ t, diamond.performDFS 4 0 (.init 4) = some t ∧
    t.postOrderNum2BlockId = [some 3, some 1, some 2, some 0] ∧
    t.postOrderNum2BlockId.Perm ((range 4).map some) := by
  obtain ⟨t, ht, hpost⟩ : ∃ t, diamond.performDFS 4 0 (.init 4) = some t ∧
      t.postOrderNum2BlockId = [some 3, some 1, some 2, some 0] := ⟨_, rfl, rfl⟩
  exact ⟨t, ht, hpost, performDFS_perm ht allReachable_diamond⟩

/-- **Every successor of a block has it as a predecessor.** -/
theorem performDFS_mirrors {fuel : Nat}
    (h : fn.performDFS fuel fn.entryBB (.init fn.numBBs) = some t) (hall : fn.AllReachable)
    {bb cc : BasicBlock} {n : Nat} (hbb : fn.getBasicBlockFromId m = some bb)
    (hcc : fn.getBasicBlockFromId n = some cc) (hs : BBId.reg n ∈ bb.succs) :
    BBId.reg m ∈ cc.preds := by
  obtain ⟨-, bb', hbb', hpred, -⟩ := performDFS_done h hall (lt_of_getBasicBlockFromId hbb)
  obtain rfl : bb = bb' := Option.mem_unique hbb hbb'
  have := hpred _ hs
  rwa [hasAsAPredecessor, hcc, Option.any_some, decide_eq_true_eq] at this

end Cfg

end Kerninst
